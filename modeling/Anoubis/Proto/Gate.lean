import Anoubis.Proto.Server

/-! What a connection lets through.

    Policy requests and dispatchers come behind version, authentication and a protocol selection with
    POLICY, and never behind a request to close; the notify group is reached behind a selection with NOTIFY;
    the two close messages are sent once, and nothing is sent on a closed channel. `Gate` says so of every
    event, by the events before it. The invariant `Ok` ties the flags of the server object to its past. -/

namespace Anoubis.Connection

open List

open Anoubis.Lib Anoubis.Proto Option

variable {P : Type}

/-! ### The property -/

/-- No CLOSEREQ and no CLOSEACK was received. -/
def NotClosing (past : List Event) : Prop := ∀ n, .recv n ∈ past → n ≠ cClosereq ∧ n ≠ cCloseack

/-- The connection is ready for requests of the policy protocol by this user. -/
structure Ready (past : List Event) (uid : ℕ) : Prop where
  versel : .versel ∈ past
  auth : .auth uid ∈ past
  protosel : ∃ p, .protosel p ∈ past ∧ p.policy = true
  notClosing : NotClosing past

/-- NOTIFY was selected. -/
def Selected (past : List Event) : Prop := ∃ p, .protosel p ∈ past ∧ p.notify = true

/-- What may happen behind `past`. -/
def Gate (past : List Event) : Event → Prop
  | .policy uid => Ready past uid
  | .dispatch opcode uid => opcode ≠ cAuthdata → Ready past uid
  | .register | .answer => Selected past
  | .sent m =>
    .closed ∉ past ∧ (m = .closereq → .sent .closereq ∉ past) ∧ (m = .closeack → .sent .closeack ∉ past)
  | .auth _ => ∀ u, .auth u ∉ past
  | _ => True

/-! ### The invariant -/

/-- The part of the server object that matters here. -/
structure Core where
  trace : List Event
  versel : Bool
  flagAuth : Bool
  authUid : ℕ
  pending : Bool
  policy : Bool
  notify : Bool
  gotclosereq : Bool
  sentclosereq : Bool
  sentcloseack : Bool
  fd : Bool

def core (s : Server P) : Core :=
  ⟨s.trace, s.versel, s.flagAuth, s.authUid, s.auth.isSome, s.proto.policy, s.proto.notify, s.gotclosereq,
    s.sentclosereq, s.sentcloseack, s.fd⟩

/-- The flags say what has happened. -/
structure Ok (c : Core) : Prop where
  gate : AtEach Gate c.trace
  versel : c.versel = true → .versel ∈ c.trace
  flagAuth : c.flagAuth = true → .auth c.authUid ∈ c.trace
  auth : ∀ u, .auth u ∈ c.trace → c.flagAuth = true
  pending : c.pending = true → c.flagAuth = false
  policy : c.policy = true → c.versel = true ∧ c.flagAuth = true ∧
    (∃ p, .protosel p ∈ c.trace ∧ p.policy = true) ∧ NotClosing c.trace
  notify : c.notify = true → Selected c.trace
  closing : c.gotclosereq = false → NotClosing c.trace
  closereq : .sent .closereq ∈ c.trace → c.sentclosereq = true
  closeack : .sent .closeack ∈ c.trace → c.sentcloseack = true
  closed : .closed ∈ c.trace → c.fd = false

/-- An event that the flags already say. -/
def Told (c : Core) : Event → Prop
  | .auth _ => c.flagAuth = true
  | .recv n => (n = cClosereq ∨ n = cCloseack) → c.gotclosereq = true ∧ c.policy = false
  | .sent .closereq => c.sentclosereq = true
  | .sent .closeack => c.sentcloseack = true
  | .closed => c.fd = false
  | _ => True

theorem Ok.emit {c : Core} (h : Ok c) {x : Event} (hg : Gate c.trace x) (ht : Told c x) :
    Ok { c with trace := c.trace ++ [x] } := by
  have hmem : ∀ {y}, y ∈ c.trace → y ∈ c.trace ++ [x] := mem_append_left _
  have hold : ∀ {y}, y ∈ c.trace ++ [x] → y ∈ c.trace ∨ y = x := by
    intro y hy
    simpa using hy
  have hclosing : NotClosing c.trace → (∀ n, x = .recv n → n ≠ cClosereq ∧ n ≠ cCloseack) →
      NotClosing (c.trace ++ [x]) := by
    intro hn hx n hin
    rcases hold hin with hin | rfl
    · exact hn n hin
    · exact hx n rfl
  refine ⟨atEach_concat h.gate hg, fun hv => hmem (h.versel hv), fun ha => hmem (h.flagAuth ha), ?_, h.pending,
    ?_, ?_, ?_, ?_, ?_, ?_⟩
  · intro u hu
    rcases hold hu with hu | rfl
    · exact h.auth u hu
    · exact ht
  · intro hp
    obtain ⟨hv, ha, ⟨p, hin, hpol⟩, hn⟩ := h.policy hp
    refine ⟨hv, ha, ⟨p, hmem hin, hpol⟩, hclosing hn fun n hx => ?_⟩
    subst hx
    by_contra hcl
    have := (ht (by tauto)).2
    rw [hp] at this
    cases this
  · intro hn
    obtain ⟨p, hin, hp⟩ := h.notify hn
    exact ⟨p, hmem hin, hp⟩
  · intro hgot
    refine hclosing (h.closing hgot) fun n hx => ?_
    subst hx
    by_contra hcl
    have := (ht (by tauto)).1
    rw [hgot] at this
    cases this
  · intro hin
    rcases hold hin with hin | rfl
    · exact h.closereq hin
    · exact ht
  · intro hin
    rcases hold hin with hin | rfl
    · exact h.closeack hin
    · exact ht
  · intro hin
    rcases hold hin with hin | rfl
    · exact h.closed hin
    · exact ht

/-! ### Sending -/

variable {s : Server P} {opcode : ℕ}

theorem ok_channelClose (h : Ok (core s)) : Ok (core (channelClose s)) := by
  rw [channelClose]
  split
  · have hclosed : Ok { core s with fd := false } :=
      ⟨h.gate, h.versel, h.flagAuth, h.auth, h.pending, h.policy, h.notify, h.closing, h.closereq, h.closeack,
        fun _ => rfl⟩
    exact hclosed.emit trivial rfl
  · exact h

variable (env : Env)

/-- A message is put on the channel: one of the close messages only the first time. -/
theorem ok_accSendmsg {m : Out} (h : Ok (core s))
    (hreq : m = .closereq → s.sentclosereq = true ∧ .sent .closereq ∉ s.trace)
    (hack : m = .closeack → s.sentcloseack = true ∧ .sent .closeack ∉ s.trace) :
    Ok (core (accSendmsg env s m).2) := by
  rw [accSendmsg]
  split
  · rename_i hfd
    refine h.emit ⟨fun hcl => ?_, fun hm => (hreq hm).2, fun hm => (hack hm).2⟩ ?_
    · have := h.closed hcl
      rw [show (core s).fd = s.fd from rfl, hfd] at this
      cases this
    · cases m with
      | closereq => exact (hreq rfl).1
      | closeack => exact (hack rfl).1
      | _ => trivial
  · exact h

theorem ok_sendLast (h : Ok (core s)) : Ok (core (sendLast s).2) := by
  rw [sendLast]
  split
  · exact ok_channelClose h
  · exact h

theorem ok_anoubisServerSend {m : Out} (h : Ok (core s)) (hm : m ≠ .closeack)
    (hreq : m = .closereq → s.sentclosereq = true ∧ .sent .closereq ∉ s.trace) :
    Ok (core (anoubisServerSend env s m).2) := by
  have hfirst : Ok (core (if s.chan then accSendmsg env s m else (false, s)).2) := by
    split
    · exact ok_accSendmsg env h hreq (fun he => absurd he hm)
    · exact h
  simp only [anoubisServerSend]
  revert hfirst
  generalize (if s.chan then accSendmsg env s m else (false, s)) = r
  intro hfirst
  split
  · exact hfirst
  split
  · split
    · exact ok_sendLast hfirst
    · -- the CLOSEACK
      rename_i hnot
      have hnew : .sent .closeack ∉ r.2.trace := by
        intro hin
        exact hnot (hfirst.closeack hin)
      have hflag : Ok (core { r.2 with sentcloseack := true }) :=
        ⟨hfirst.gate, hfirst.versel, hfirst.flagAuth, hfirst.auth, hfirst.pending, hfirst.policy,
          hfirst.notify, hfirst.closing, hfirst.closereq, fun _ => rfl, hfirst.closed⟩
      have hsent := ok_accSendmsg env hflag (m := .closeack) nofun (fun _ => ⟨rfl, hnew⟩)
      split
      · exact hsent
      · exact ok_sendLast hsent
  · exact hfirst

theorem ok_reply (h : Ok (core s)) (token : Bytes) (opcode error : ℕ) :
    Ok (core (reply env s token opcode error).2) :=
  ok_anoubisServerSend env h nofun nofun

/-! ### The connect protocol -/

theorem ok_versel (h : Ok (core s)) (buf : Bytes) (opcode : ℕ) :
    Ok (core (anoubisProcessVersel env s buf opcode).2) := by
  rw [anoubisProcessVersel]
  split
  · exact ok_reply env h _ _ _
  split
  · exact ok_reply env h _ _ _
  · refine ok_reply env ?_ _ _ _
    have hsel : Ok { core s with trace := s.trace ++ [.versel] } := h.emit trivial trivial
    refine ⟨hsel.gate, fun _ => ?_, hsel.flagAuth, hsel.auth, hsel.pending, fun hp => ?_, hsel.notify,
      hsel.closing, hsel.closereq, hsel.closeack, hsel.closed⟩
    · exact mem_append_right _ mem_cons_self
    · exact ⟨rfl, (hsel.policy hp).2⟩

theorem ok_optreq (h : Ok (core s)) (buf : Bytes) (opcode : ℕ) :
    Ok (core (anoubisProcessOptreq env s buf opcode).2) := by
  rw [anoubisProcessOptreq]
  split
  · exact ok_reply env h _ _ _
  split
  · exact ok_reply env h _ _ _
  · exact ok_anoubisServerSend env (s := { s with multiplex := _ }) h nofun nofun

theorem ok_auth (h : Ok (core s)) (buf : Bytes) (opcode : ℕ) : Ok (core (anoubisProcessAuth env s buf opcode).2) := by
  rw [anoubisProcessAuth]
  split
  · exact ok_reply env h _ _ _
  rename_i hcond
  split
  · exact ok_reply env h _ _ _
  · simp only [not_or, Bool.not_eq_true] at hcond
    have hnew : Ok (core { s with auth := some (Auth.create : Auth P) }) :=
      ⟨h.gate, h.versel, h.flagAuth, h.auth, fun _ => hcond.2.2.1, h.policy, h.notify, h.closing, h.closereq,
        h.closeack, h.closed⟩
    exact ok_reply env hnew _ _ _

theorem ok_protosel (h : Ok (core s)) (hopen : closing s = false) (buf : Bytes) (opcode : ℕ) :
    Ok (core (anoubisProcessProtosel env s buf opcode).2) := by
  rw [anoubisProcessProtosel]
  split
  · exact ok_reply env h _ _ _
  rename_i hcond
  simp only [not_or, Bool.not_eq_false] at hcond
  obtain ⟨-, -, hauth, hversel⟩ := hcond
  split
  · exact ok_reply env h _ _ _
  split
  · exact ok_reply env h _ _ _
  rename_i p _
  split
  · exact ok_reply env h _ _ _
  · refine ok_reply env ?_ _ _ _
    have hgot : s.gotclosereq = false := (Bool.or_eq_false_iff.mp hopen).1
    have hsel : Ok { core s with trace := s.trace ++ [.protosel p] } := h.emit trivial trivial
    have hin : Event.protosel p ∈ s.trace ++ [.protosel p] := mem_append_right _ mem_cons_self
    exact ⟨hsel.gate, hsel.versel, hsel.flagAuth, hsel.auth, hsel.pending,
      fun hp => ⟨hversel, hauth, ⟨p, hin, hp⟩, hsel.closing hgot⟩, fun hn => ⟨p, hin, hn⟩, hsel.closing,
      hsel.closereq, hsel.closeack, hsel.closed⟩

/-- The authentication ends: the connection is authenticated now, for the first time, or it is not. -/
theorem ok_finishCallback {s' : Server P} (h : Ok (core s))
    (hs : anoubisAuthFinishCallback env s = some s') : Ok (core s') := by
  rw [anoubisAuthFinishCallback] at hs
  obtain ⟨auth, hauth, hs⟩ := bind_eq_some_iff.mp hs
  have hnot : s.flagAuth = false := h.pending (by simp [core, hauth])
  have hsend : ∀ {t : Server P} {m : Out}, Ok (core t) → m ≠ .closeack → m ≠ .closereq →
      Ok (core (if (anoubisServerSend env t m).1 < 0 then
        channelClose { (anoubisServerSend env t m).2 with flagError := true }
        else (anoubisServerSend env t m).2)) := by
    intro t m ht hack hreq
    have hok := ok_anoubisServerSend env ht hack (fun he => absurd he hreq)
    split
    · exact ok_channelClose (s := { (anoubisServerSend env t m).2 with flagError := true }) hok
    · exact hok
  split at hs
  · rw [← some.inj hs]
    refine hsend ?_ nofun nofun
    have hfresh : ∀ u, Event.auth u ∉ s.trace := by
      intro u hu
      have := h.auth u hu
      rw [show (core s).flagAuth = s.flagAuth from rfl, hnot] at this
      cases this
    refine ⟨atEach_concat h.gate hfresh, fun hv => mem_append_left _ (h.versel hv), fun _ => ?_,
      fun _ _ => rfl, nofun, fun hp => ?_, fun hn => ?_, fun hg n hin => ?_, fun hin => ?_, fun hin => ?_,
      fun hin => ?_⟩
    · exact mem_append_right _ mem_cons_self
    · have := (h.policy hp).2.1
      rw [show (core s).flagAuth = s.flagAuth from rfl, hnot] at this
      cases this
    · obtain ⟨p, hin, hp⟩ := h.notify hn
      exact ⟨p, mem_append_left _ hin, hp⟩
    · exact h.closing hg n (by simpa [core, Server.emit] using hin)
    · exact h.closereq (by simpa [core, Server.emit] using hin)
    · exact h.closeack (by simpa [core, Server.emit] using hin)
    · exact h.closed (by simpa [core, Server.emit] using hin)
  · rw [← some.inj hs]
    refine hsend ?_ nofun nofun
    exact ⟨h.gate, h.versel, h.flagAuth, h.auth, nofun, h.policy, h.notify, h.closing, h.closereq, h.closeack,
      h.closed⟩
  · cases hs

/-! ### Closing -/

/-- A request to close was received, and the flags know it. -/
theorem ok_gotClose (h : Ok (core s)) (n : ℕ) (opcode : Opcode) : Ok (core (gotClose (s.emit (.recv n)) opcode)) := by
  have hgot : Ok { core s with gotclosereq := true, policy := false } :=
    ⟨h.gate, h.versel, h.flagAuth, h.auth, h.pending, nofun, h.notify, nofun, h.closereq, h.closeack, h.closed⟩
  have hrecv : Ok { core s with trace := s.trace ++ [.recv n], gotclosereq := true, policy := false } :=
    hgot.emit trivial (fun _ => ⟨rfl, rfl⟩)
  simp only [gotClose]
  split
  · split
    · rw [channelClose]
      split
      · -- the last CLOSEACK closes the channel
        rename_i hchan
        have hclosed := ok_channelClose (s := { s.emit (.recv n) with
          gotcloseack := true, gotclosereq := true, proto := ⟨false, s.proto.notify⟩ }) hrecv
        rw [channelClose, if_pos hchan] at hclosed
        exact hclosed
      · exact hrecv
    · exact hrecv
  · exact hrecv

theorem ok_closereq (h : Ok (core s)) (n : ℕ) (opcode : Opcode) :
    Ok (core (anoubisProcessClosereq env (s.emit (.recv n)) opcode).2) := by
  have hgot := ok_gotClose h n opcode
  simp only [anoubisProcessClosereq]
  revert hgot
  generalize gotClose (s.emit (.recv n)) opcode = t
  intro hgot
  split
  · exact hgot
  · -- the first CLOSEREQ
    rename_i hnot
    have hnew : .sent .closereq ∉ t.trace := by
      intro hin
      exact hnot (hgot.closereq hin)
    have hflag : Ok (core { t with sentclosereq := true }) :=
      ⟨hgot.gate, hgot.versel, hgot.flagAuth, hgot.auth, hgot.pending, hgot.policy, hgot.notify, hgot.closing,
        fun _ => rfl, hgot.closeack, hgot.closed⟩
    have hsent := ok_anoubisServerSend env hflag (m := .closereq) nofun (fun _ => ⟨rfl, hnew⟩)
    split
    · exact hsent
    · exact hsent

/-! ### The other protocols -/

theorem ok_nregister (h : Ok (core s)) (buf : Bytes) (opcode : ℕ) (token : Bytes) :
    Ok (core (anoubisProcessNregister env s buf opcode token).2) := by
  rw [anoubisProcessNregister]
  split
  · exact ok_reply env h _ _ _
  rename_i hcond
  simp only [not_or, Bool.not_eq_false] at hcond
  have hreg : Ok (core (s.emit .register)) := h.emit (h.notify hcond.2.1) trivial
  simp only
  split
  · exact ok_reply env hreg _ _ _
  · exact ok_reply env hreg _ _ _

theorem ok_processReply (h : Ok (core s)) (buf : Bytes) (opcode : ℕ) (token : Bytes) :
    Ok (core (anoubisProcessReply env s buf opcode token).2) := by
  rw [anoubisProcessReply]
  split
  · exact ok_reply env h _ _ _
  rename_i hcond
  simp only [not_or, Bool.not_eq_false] at hcond
  have hans : Ok (core (s.emit .answer)) := h.emit (h.notify hcond.2.1) trivial
  simp only
  split
  · exact ok_reply env hans _ _ _
  · exact hans

/-- With the POLICY bit set the connection is ready. -/
theorem Ok.ready (h : Ok (core s)) (hp : s.proto.policy = true) : Ready s.trace s.authUid := by
  obtain ⟨hversel, hauth, hsel, hclose⟩ := h.policy hp
  exact ⟨h.versel hversel, h.flagAuth hauth, hsel, hclose⟩

theorem ok_request (h : Ok (core s)) (buf : Bytes) (opcode : ℕ) (token : Bytes) :
    Ok (core (processRequest env s buf opcode token).2) := by
  have hshort : Ok (core (if !verifyLength buf 8 then (replyInvalid env s opcode).2 else s)) := by
    split
    · exact ok_reply env h _ _ _
    · exact h
  simp only [processRequest]
  revert hshort
  generalize (if !verifyLength buf 8 then (replyInvalid env s opcode).2 else s) = t
  intro hshort
  split
  · exact ok_reply env hshort _ _ _
  split
  · exact ok_reply env hshort _ _ _
  · rename_i hp
    exact hshort.emit (hshort.ready (by simpa using hp)) trivial

theorem ok_authdata (h : Ok (core s)) (opcode : ℕ) (hop : opcode = cAuthdata) (token : Bytes) :
    Ok (core (processAuthdata env s opcode token).2) := by
  rw [processAuthdata]
  split
  · exact ok_reply env h _ _ _
  split
  · exact ok_reply env h _ _ _
  split
  · exact ok_reply env h _ _ _
  split
  · exact ok_reply env h _ _ _
  split
  · exact ok_reply env h _ _ _
  · exact h.emit (fun hne => absurd hop hne) trivial

theorem ok_unlessClosing (h : Ok (core s)) {token : Bytes} {r : ℤ × Server P}
    (hr : closing s = false → Ok (core r.2)) : Ok (core (unlessClosing env s opcode token r).2) := by
  rw [unlessClosing]
  split
  · exact ok_reply env h _ _ _
  · exact hr (by simpa using ‹¬ closing s = true›)

/-! ### anoubis_server_process -/

theorem mem_opcodes {n : ℕ} {op : Opcode} (h : Opcode.decode n = op) (hop : op ≠ .notAllowed ∧ op ≠ .other) :
    (n, op) ∈ opcodes := by
  rw [Opcode.decode] at h
  split at h
  · rename_i m _ hfind
    subst h
    obtain rfl : m = n := by simpa using find?_some hfind
    exact mem_of_find?_eq_some hfind
  · split at h
    · exact absurd h.symm hop.1
    · exact absurd h.symm hop.2

theorem policy_of_find (h : anoubisFindDispatcher s opcode = true) (hop : opcode ≠ cAuthdata) :
    s.proto.policy = true := by
  rw [anoubisFindDispatcher] at h
  split at h
  · cases h
  · rename_i hcond
    by_contra hp
    exact hcond ⟨.inl (by simpa using hp), hop⟩

/-- The opcodes other than the two close messages. -/
theorem ok_processOpcode (h : Ok (core s)) (buf : Bytes) (hreq : opcode ≠ cClosereq)
    (hack : opcode ≠ cCloseack) (token : Bytes) : Ok (core (processOpcode env s buf opcode token).2) := by
  rw [processOpcode]
  cases hop : Opcode.decode opcode with
  | request => exact ok_request env h buf opcode token
  | versel => exact ok_unlessClosing env h (fun _ => ok_versel env h buf opcode)
  | auth => exact ok_unlessClosing env h (fun _ => ok_auth env h buf opcode)
  | optreq => exact ok_unlessClosing env h (fun _ => ok_optreq env h buf opcode)
  | protosel => exact ok_unlessClosing env h (fun hopen => ok_protosel env h hopen buf opcode)
  | register => exact ok_unlessClosing env h (fun _ => ok_nregister env h buf opcode token)
  | unregister => exact ok_unlessClosing env h (fun _ => ok_nregister env h buf opcode token)
  | version => exact ok_unlessClosing env h (fun _ => ok_anoubisServerSend env h nofun nofun)
  | authdata => exact ok_authdata env h opcode (by simpa [opcodes] using mem_opcodes hop (by decide)) token
  | closereq => exact absurd (by simpa [opcodes] using mem_opcodes hop (by decide)) hreq
  | closeack => exact absurd (by simpa [opcodes] using mem_opcodes hop (by decide)) hack
  | reply =>
    simp only
    split
    · exact h
    · exact ok_processReply env h buf opcode _
  | delegate =>
    simp only
    split
    · exact h
    · exact ok_processReply env h buf opcode _
  | notAllowed => exact ok_reply env h _ _ _
  | other =>
    simp only
    split
    · exact ok_reply env h _ _ _
    split
    · exact ok_reply env h _ _ _
    · rename_i hfind _
      exact h.emit (fun hop => h.ready (policy_of_find (by simpa using hfind) hop)) trivial

theorem ok_process (h : Ok (core s)) (buf : Bytes) : Ok (core (anoubisServerProcess env s buf).2) := by
  rw [anoubisServerProcess]
  split
  · exact h
  split
  · exact h
  split
  · exact h
  dsimp only
  by_cases hreq : u32 buf 0 = cClosereq
  · rw [hreq, if_neg (by decide), processOpcode, show Opcode.decode cClosereq = .closereq from rfl]
    exact ok_closereq env h cClosereq .closereq
  by_cases hack : u32 buf 0 = cCloseack
  · rw [hack, if_neg (by decide), processOpcode, show Opcode.decode cCloseack = .closeack from rfl]
    exact ok_closereq env h cCloseack .closeack
  have hrecv : Ok (core (s.emit (.recv (u32 buf 0)))) := by
    refine h.emit trivial (fun hcl => ?_)
    rcases hcl with hcl | hcl
    · exact absurd hcl hreq
    · exact absurd hcl hack
  split
  · split
    · exact hrecv
    split
    · exact ok_reply env hrecv _ _ _
    · exact ok_processOpcode env hrecv buf hreq hack _
  · exact ok_processOpcode env hrecv buf hreq hack _

/-! ### Runs -/

/-- What happens to a connection: its creation is completed, its peer sends a buffer, the caller works on the
    authentication and ends it, another module sends on the channel, the server is destroyed. -/
inductive Op (P : Type) where
  | create (opcode : ℕ)
  | start
  | process (buf : Bytes)
  | setAuth (auth : Auth P)
  | finish
  | send
  | destroy

def step (env : Env) (s : Server P) : Op P → Option (Server P)
  | .create opcode => some (anoubisDispatchCreate s opcode).2
  | .start => (anoubisServerStart env s).map Prod.snd
  | .process buf => some (anoubisServerProcess env s buf).2
  | .setAuth auth => if s.auth.isSome then some { s with auth := some auth } else none
  | .finish => anoubisAuthFinishCallback env s
  | .send => some (accSendmsg env s .other).2
  | .destroy => some (anoubisServerDestroy s)

theorem ok_create : Ok (core (Server.create : Server P)) :=
  ⟨atEach_nil _, nofun, nofun, nofun, nofun, nofun, nofun, fun _ => nofun, nofun, nofun, nofun⟩

theorem ok_step {s' : Server P} {op : Op P} (h : Ok (core s)) (hs : step env s op = some s') : Ok (core s') := by
  cases op with
  | create opcode =>
    rw [← some.inj hs, anoubisDispatchCreate]
    split
    · exact h
    · exact h
  | start =>
    obtain ⟨r, hr, rfl⟩ := map_eq_some_iff.mp hs
    rw [anoubisServerStart] at hr
    split at hr
    · cases hr
    · have hsent := ok_anoubisServerSend env h (m := .hello) nofun nofun
      rw [← some.inj hr]
      split
      · exact hsent
      · exact hsent
  | process buf =>
    rw [← some.inj hs]
    exact ok_process env h buf
  | setAuth auth =>
    rw [step] at hs
    split at hs
    · rename_i hauth
      rw [← some.inj hs]
      exact ⟨h.gate, h.versel, h.flagAuth, h.auth, fun _ => h.pending hauth, h.policy, h.notify, h.closing,
        h.closereq, h.closeack, h.closed⟩
    · cases hs
  | finish => exact ok_finishCallback env h hs
  | send =>
    rw [← some.inj hs]
    exact ok_accSendmsg env h nofun nofun
  | destroy =>
    rw [← some.inj hs, anoubisServerDestroy]
    refine ok_channelClose ?_
    exact ⟨h.gate, h.versel, h.flagAuth, h.auth, nofun, h.policy, h.notify, h.closing, h.closereq, h.closeack,
      h.closed⟩

/-- Every event of a connection is behind the events it needs, over all buffers that its peer sends and
    every moment at which the authentication ends. -/
theorem protocol_gated (env : Env) {ops : List (Op P)} {s : Server P}
    (hrun : runs (step env) Server.create ops = some s) : AtEach Gate s.trace := by
  have hok : Ok (core s) :=
    runs_keep (I := fun s => Ok (core s)) (fun _ _ _ h hs => ok_step env h hs) ok_create hrun
  exact hok.gate


/-- A peer that logs in as user 1000, selects POLICY, makes a request and closes. -/
def login : List (Op Unit) :=
  [.create cAuthdata, .start, .process [0, 0, 0x20, 0x01, 0, 8, 0, 0, 1, 2, 3, 4],
    .process [0, 0, 0x20, 0x10, 1, 2, 3, 4], .setAuth ⟨.success, some 0, 0, 1000, none⟩, .finish,
    .process ([0, 0, 0x20, 0x22] ++ ascii "POLICY" ++ [1, 2, 3, 4]),
    .process [0, 0, 0x38, 0, 0, 0, 0, 3, 1, 2, 3, 4], .process [0, 0, 0x20, 0x30, 1, 2, 3, 4],
    .process [0, 0, 0x38, 0, 0, 0, 0, 2, 1, 2, 3, 4], .process [0, 0, 0x20, 0x31, 1, 2, 3, 4]]

theorem protocol_gated_login :
    ∃ s, runs (step ⟨fun _ => true, fun _ => true, fun _ => true⟩) Server.create login = some s ∧
      s.trace.filter (fun x => decide (x = .policy 1000 ∨ x = .sent .closeack ∨ x = .closed)) =
        [.policy 1000, .sent .closeack, .closed] ∧
      AtEach Gate s.trace := by
  have hrun : (runs (step ⟨fun _ => true, fun _ => true, fun _ => true⟩) Server.create login).map
      (fun s => s.trace.filter (fun x => decide (x = .policy 1000 ∨ x = .sent .closeack ∨ x = .closed))) =
        some [.policy 1000, .sent .closeack, .closed] := by decide +kernel
  obtain ⟨s, hs, ht⟩ := Option.map_eq_some_iff.mp hrun
  exact ⟨s, hs, ht, protocol_gated _ hs⟩

end Anoubis.Connection

import Anoubis.Proto.Server
import Mathlib.Logic.Relation

/-! What a call of the server does to the authentication.

    Whatever `anoubis_server_process` does is a sequence of few kinds of steps (`Effect`): it writes to its trace,
    it sets flags, it closes the channel, and it makes an authentication object where there is none. What
    these keep, it keeps. -/

namespace Anoubis.Connection

open Anoubis.Lib Anoubis.Proto Relation

variable {P : Type}

/-- The error of an AUTHREPLY. -/
def Event.authreply : Event → Option ℕ
  | .sent (.authreply error _) => some error
  | _ => none

/-- The AUTHREPLYs of a connection. -/
def replies (s : Server P) : List ℕ := s.trace.filterMap Event.authreply

/-- The steps of the server that are not the end of an authentication; `b` says whether one may start. -/
inductive Effect (b : Bool) : Server P → Server P → Prop where
  | emit (s : Server P) {x : Event} (hx : x.authreply = none) : Effect b s (s.emit x)
  | close (s : Server P) : Effect b s (channelClose s)
  | flags (s : Server P) (proto : Protos) (versel multiplex gotreq sentreq gotack sentack notify : Bool) :
    Effect b s { s with
      proto := proto, versel := versel, multiplex := multiplex, gotclosereq := gotreq, sentclosereq := sentreq,
      gotcloseack := gotack, sentcloseack := sentack, notify := notify }
  | auth (s : Server P) (hb : b = true) (hnone : s.auth = none) (hflag : s.flagAuth = false) :
    Effect b s { s with auth := some Auth.create }

/-- Any number of them. -/
abbrev Effects (b : Bool) : Server P → Server P → Prop := ReflTransGen (Effect b)

variable {b : Bool}

theorem effects_accSendmsg (env : Env) (s : Server P) {m : Out} (hm : (Event.sent m).authreply = none) :
    Effects b s (accSendmsg env s m).2 := by
  rw [accSendmsg]
  split
  · exact .single (.emit s hm)
  · exact .refl

theorem effects_sendLast (s : Server P) : Effects b s (sendLast s).2 := by
  rw [sendLast]
  split
  · exact .single (.close s)
  · exact .refl

/-- What follows the first message in `anoubis_server_send`. -/
theorem effects_sendTail (env : Env) (s : Server P) :
    Effects b s (if s.sentclosereq && s.gotclosereq then
      if s.sentcloseack then sendLast s
      else if !(accSendmsg env { s with sentcloseack := true } .closeack).1 then
        (-eio, (accSendmsg env { s with sentcloseack := true } .closeack).2)
        else sendLast (accSendmsg env { s with sentcloseack := true } .closeack).2
      else (0, s)).2 := by
  split
  · split
    · exact effects_sendLast s
    · have hflag : Effects b s { s with sentcloseack := true } :=
        .single (.flags s s.proto s.versel s.multiplex s.gotclosereq s.sentclosereq s.gotcloseack true s.notify)
      have hack := effects_accSendmsg (b := b) env { s with sentcloseack := true } (m := .closeack) rfl
      split
      · exact hflag.trans hack
      · exact hflag.trans (hack.trans (effects_sendLast _))
  · exact .refl

theorem effects_send (env : Env) (s : Server P) {m : Out} (hm : (Event.sent m).authreply = none) :
    Effects b s (anoubisServerSend env s m).2 := by
  have hfirst : Effects b s (if s.chan then accSendmsg env s m else (false, s)).2 := by
    split
    · exact effects_accSendmsg env s hm
    · exact .refl
  simp only [anoubisServerSend]
  revert hfirst
  generalize (if s.chan then accSendmsg env s m else (false, s)) = r
  intro hfirst
  split
  · exact hfirst
  · exact hfirst.trans (effects_sendTail env r.2)

variable {s t s' : Server P} {opcode : ℕ} {token : Bytes} {env : Env}

theorem effects_reply (env : Env) (h : Effects b s t) (token : Bytes) (opcode error : ℕ) :
    Effects b s (reply env t token opcode error).2 :=
  h.trans (effects_send env t rfl)

/-! ### anoubis_server_process -/

/-- Flags only. -/
theorem Effects.set (h : Effects b s t) (proto : Protos)
    (versel multiplex gotreq sentreq gotack sentack notify : Bool) :
    Effects b s { t with
      proto := proto, versel := versel, multiplex := multiplex, gotclosereq := gotreq, sentclosereq := sentreq,
      gotcloseack := gotack, sentcloseack := sentack, notify := notify } :=
  h.tail (.flags t proto versel multiplex gotreq sentreq gotack sentack notify)

theorem effects_gotClose (h : Effects b s t) (opcode : Opcode) : Effects b s (gotClose t opcode) := by
  simp only [gotClose]
  split
  · split
    · have hgot := h.set t.proto t.versel t.multiplex t.gotclosereq t.sentclosereq true t.sentcloseack t.notify
      have hclosed := hgot.tail (.close _)
      exact hclosed.tail (.flags _ _ _ _ true _ _ _ _)
    · exact h.set _ t.versel t.multiplex true t.sentclosereq true t.sentcloseack t.notify
  · exact h.set _ t.versel t.multiplex true t.sentclosereq t.gotcloseack t.sentcloseack t.notify

theorem effects_closereq (env : Env) (h : Effects b s t) (opcode : Opcode) :
    Effects b s (anoubisProcessClosereq env t opcode).2 := by
  have hgot := effects_gotClose h opcode
  simp only [anoubisProcessClosereq]
  revert hgot
  generalize gotClose t opcode = u
  intro hgot
  split
  · exact hgot
  · have hflag : Effects b s { u with sentclosereq := true } :=
      hgot.set u.proto u.versel u.multiplex u.gotclosereq true u.gotcloseack u.sentcloseack u.notify
    have hsent := hflag.trans (effects_send env _ (m := .closereq) rfl)
    split
    · exact hsent
    · exact hsent

theorem effects_versel (env : Env) (h : Effects b s t) (buf : Bytes) (opcode : ℕ) :
    Effects b s (anoubisProcessVersel env t buf opcode).2 := by
  rw [anoubisProcessVersel]
  split
  · exact effects_reply env h _ _ _
  split
  · exact effects_reply env h _ _ _
  · refine effects_reply env (.tail ?_ (.emit _ rfl)) _ _ _
    exact h.set t.proto true t.multiplex t.gotclosereq t.sentclosereq t.gotcloseack t.sentcloseack t.notify

theorem effects_optreq (env : Env) (h : Effects b s t) (buf : Bytes) (opcode : ℕ) :
    Effects b s (anoubisProcessOptreq env t buf opcode).2 := by
  rw [anoubisProcessOptreq]
  split
  · exact effects_reply env h _ _ _
  split
  · exact effects_reply env h _ _ _
  · refine .trans ?_ (effects_send env _ rfl)
    exact h.set t.proto t.versel _ t.gotclosereq t.sentclosereq t.gotcloseack t.sentcloseack t.notify

theorem effects_auth (env : Env) (h : Effects true s t) (buf : Bytes) (opcode : ℕ) :
    Effects true s (anoubisProcessAuth env t buf opcode).2 := by
  rw [anoubisProcessAuth]
  split
  · exact effects_reply env h _ _ _
  rename_i hcond
  simp only [not_or, Bool.not_eq_true] at hcond
  split
  · exact effects_reply env h _ _ _
  · refine effects_reply env (.tail h (.auth t rfl ?_ hcond.2.2.1)) _ _ _
    simpa using hcond.2.2.2

theorem effects_protosel (env : Env) (h : Effects b s t) (buf : Bytes) (opcode : ℕ) :
    Effects b s (anoubisProcessProtosel env t buf opcode).2 := by
  rw [anoubisProcessProtosel]
  split
  · exact effects_reply env h _ _ _
  split
  · exact effects_reply env h _ _ _
  split
  · exact effects_reply env h _ _ _
  split
  · exact effects_reply env h _ _ _
  · refine effects_reply env (.tail ?_ (.emit _ rfl)) _ _ _
    exact h.set _ t.versel t.multiplex t.gotclosereq t.sentclosereq t.gotcloseack t.sentcloseack _

theorem effects_nregister (env : Env) (h : Effects b s t) (buf : Bytes) (opcode : ℕ) (token : Bytes) :
    Effects b s (anoubisProcessNregister env t buf opcode token).2 := by
  rw [anoubisProcessNregister]
  split
  · exact effects_reply env h _ _ _
  · have hreg : Effects b s (t.emit .register) := h.tail (.emit t rfl)
    simp only
    split
    · exact effects_reply env hreg _ _ _
    · exact effects_reply env hreg _ _ _

theorem effects_processReply (env : Env) (h : Effects b s t) (buf : Bytes) (opcode : ℕ) (token : Bytes) :
    Effects b s (anoubisProcessReply env t buf opcode token).2 := by
  rw [anoubisProcessReply]
  split
  · exact effects_reply env h _ _ _
  · have hans : Effects b s (t.emit .answer) := h.tail (.emit t rfl)
    simp only
    split
    · exact effects_reply env hans _ _ _
    · exact hans

theorem effects_request (env : Env) (h : Effects b s t) (buf : Bytes) (opcode : ℕ) (token : Bytes) :
    Effects b s (processRequest env t buf opcode token).2 := by
  have hshort : Effects b s (if !verifyLength buf 8 then (replyInvalid env t opcode).2 else t) := by
    split
    · exact effects_reply env h _ _ _
    · exact h
  simp only [processRequest]
  revert hshort
  generalize (if !verifyLength buf 8 then (replyInvalid env t opcode).2 else t) = u
  intro hshort
  split
  · exact effects_reply env hshort _ _ _
  split
  · exact effects_reply env hshort _ _ _
  · exact hshort.tail (.emit u rfl)

theorem effects_authdata (env : Env) (h : Effects b s t) (opcode : ℕ) (token : Bytes) :
    Effects b s (processAuthdata env t opcode token).2 := by
  rw [processAuthdata]
  split
  · exact effects_reply env h _ _ _
  split
  · exact effects_reply env h _ _ _
  split
  · exact effects_reply env h _ _ _
  split
  · exact effects_reply env h _ _ _
  split
  · exact effects_reply env h _ _ _
  · exact h.tail (.emit t rfl)

theorem effects_unlessClosing (env : Env) (h : Effects b s t) {r : ℤ × Server P} (hr : Effects b s r.2) :
    Effects b s (unlessClosing env t opcode token r).2 := by
  rw [unlessClosing]
  split
  · exact effects_reply env h _ _ _
  · exact hr

theorem effects_processOpcode (env : Env) (h : Effects true s t) (buf : Bytes) (opcode : ℕ) (token : Bytes) :
    Effects true s (processOpcode env t buf opcode token).2 := by
  rw [processOpcode]
  cases Opcode.decode opcode with
  | request => exact effects_request env h buf opcode token
  | versel => exact effects_unlessClosing env h (effects_versel env h buf opcode)
  | auth => exact effects_unlessClosing env h (effects_auth env h buf opcode)
  | optreq => exact effects_unlessClosing env h (effects_optreq env h buf opcode)
  | protosel => exact effects_unlessClosing env h (effects_protosel env h buf opcode)
  | register => exact effects_unlessClosing env h (effects_nregister env h buf opcode token)
  | unregister => exact effects_unlessClosing env h (effects_nregister env h buf opcode token)
  | version => exact effects_unlessClosing env h (h.trans (effects_send env t rfl))
  | authdata => exact effects_authdata env h opcode token
  | closereq => exact effects_closereq env h .closereq
  | closeack => exact effects_closereq env h .closeack
  | reply =>
    simp only
    split
    · exact h
    · exact effects_processReply env h buf opcode _
  | delegate =>
    simp only
    split
    · exact h
    · exact effects_processReply env h buf opcode _
  | notAllowed => exact effects_reply env h _ _ _
  | other =>
    simp only
    split
    · exact effects_reply env h _ _ _
    split
    · exact effects_reply env h _ _ _
    · exact h.tail (.emit t rfl)

theorem effects_process (env : Env) (s : Server P) (buf : Bytes) :
    Effects true s (anoubisServerProcess env s buf).2 := by
  rw [anoubisServerProcess]
  split
  · exact .refl
  split
  · exact .refl
  split
  · exact .refl
  have hrecv : Effects true s (s.emit (.recv (u32 buf 0))) := .single (.emit s rfl)
  dsimp only
  split
  · split
    · exact hrecv
    split
    · exact effects_reply env hrecv _ _ _
    · exact effects_processOpcode env hrecv buf _ _
  · exact effects_processOpcode env hrecv buf _ _

/-! ### The authentication -/

/-- The descriptor is open as long as the server points to the channel. -/
def Wired (s : Server P) : Prop := s.chan = true → s.fd = true

/-- What the steps keep. -/
structure Keeps (b : Bool) (s s' : Server P) : Prop where
  replies : replies s' = replies s
  flagAuth : s'.flagAuth = s.flagAuth
  authUid : s'.authUid = s.authUid
  auth : s'.auth = s.auth ∨ (b = true ∧ s.auth = none ∧ s.flagAuth = false ∧ s'.auth = some Auth.create)
  chan : s'.chan = true → s.chan = true
  wired : Wired s → Wired s'

theorem Keeps.auth_eq (h : Keeps false s s') : s'.auth = s.auth := by
  rcases h.auth with hsame | ⟨hb, -⟩
  · exact hsame
  · cases hb

theorem keeps_effect (h : Effect b s s') : Keeps b s s' := by
  cases h with
  | emit hx =>
    exact ⟨by simp [Connection.replies, Server.emit, List.filterMap_append, hx], rfl, rfl, .inl rfl, id, id⟩
  | close =>
    rw [channelClose]
    split
    · exact ⟨by simp [Connection.replies, Server.emit, List.filterMap_append, Event.authreply], rfl, rfl,
        .inl rfl, nofun, fun _ => nofun⟩
    · exact ⟨rfl, rfl, rfl, .inl rfl, id, id⟩
  | flags => exact ⟨rfl, rfl, rfl, .inl rfl, id, id⟩
  | auth hb hnone hflag => exact ⟨rfl, rfl, rfl, .inr ⟨hb, hnone, hflag, rfl⟩, id, id⟩

theorem keeps_effects (h : Effects b s s') : Keeps b s s' := by
  induction h with
  | refl => exact ⟨rfl, rfl, rfl, .inl rfl, id, id⟩
  | tail _ hstep ih =>
    have hk := keeps_effect hstep
    refine ⟨hk.replies.trans ih.replies, hk.flagAuth.trans ih.flagAuth, hk.authUid.trans ih.authUid, ?_,
      fun hc => ih.chan (hk.chan hc), fun hw => hk.wired (ih.wired hw)⟩
    rcases hk.auth with hsame | ⟨hb, hnone, hflag, hnew⟩
    · rw [hsame]
      exact ih.auth
    · rcases ih.auth with hsame | ⟨-, -, -, hold⟩
      · exact .inr ⟨hb, hsame.symm.trans hnone, ih.flagAuth.symm.trans hflag, hnew⟩
      · rw [hold] at hnone
        cases hnone

@[simp] theorem returns_ne_dispatch (r : ℤ × Server P) (n : ℕ) : (returns r).1 ≠ .dispatch n := nofun

@[simp] theorem unlessClosing_ne_dispatch (env : Env) (s : Server P) (opcode : ℕ) (token : Bytes)
    (r : ℤ × Server P) (n : ℕ) : (unlessClosing env s opcode token r).1 ≠ .dispatch n := by
  rw [unlessClosing]
  split <;> exact nofun

theorem processRequest_ne_dispatch (env : Env) (s : Server P) (buf : Bytes) (opcode : ℕ) (token : Bytes)
    (n : ℕ) : (processRequest env s buf opcode token).1 ≠ .dispatch n := by
  simp only [processRequest]
  generalize (if !verifyLength buf 8 then (replyInvalid env s opcode).2 else s) = u
  split
  · exact returns_ne_dispatch _ _
  split
  · exact returns_ne_dispatch _ _
  · exact nofun

/-- Where AUTHDATA reaches its dispatcher. -/
theorem processAuthdata_dispatch {n : ℕ} (h : (processAuthdata env s opcode token).1 = .dispatch n) :
    s.flagAuth = false ∧ (∃ a, s.auth = some a ∧ (a.state = .init ∨ a.state = .inprogress)) ∧
      processAuthdata env s opcode token = anoubisProcessDispatcher s opcode := by
  rw [processAuthdata] at h ⊢
  by_cases hcl : closing s = true
  · rw [if_pos hcl] at h
    exact absurd h (returns_ne_dispatch _ _)
  rw [if_neg hcl] at h ⊢
  by_cases hcond : s.proto ≠ Protos.connect ∨ s.hellosent = false ∨ s.flagAuth = true
  · rw [if_pos hcond] at h
    exact absurd h (returns_ne_dispatch _ _)
  rw [if_neg hcond] at h ⊢
  simp only [not_or, Bool.not_eq_true] at hcond
  cases ha : s.auth with
  | none =>
    rw [ha] at h
    exact absurd h (returns_ne_dispatch _ _)
  | some a =>
    rw [ha] at h
    simp only at h ⊢
    by_cases hst : a.state ≠ .init ∧ a.state ≠ .inprogress
    · rw [if_pos hst] at h
      exact absurd h (returns_ne_dispatch _ _)
    rw [if_neg hst] at h ⊢
    by_cases hfind : (!anoubisFindDispatcher s opcode) = true
    · rw [if_pos hfind] at h
      exact absurd h (returns_ne_dispatch _ _)
    rw [if_neg hfind]
    refine ⟨hcond.2.2, ⟨a, rfl, ?_⟩, rfl⟩
    by_contra hno
    exact hst (not_or.mp hno)

theorem processOpcode_authdata {buf : Bytes} (h : (processOpcode env s buf opcode token).1 = .dispatch cAuthdata) :
    s.flagAuth = false ∧ (∃ a, s.auth = some a ∧ (a.state = .init ∨ a.state = .inprogress)) ∧
      processOpcode env s buf opcode token = anoubisProcessDispatcher s opcode := by
  rw [processOpcode] at h ⊢
  cases hop : Opcode.decode opcode with
  | authdata =>
    rw [hop] at h
    exact processAuthdata_dispatch h
  | other =>
    rw [hop] at h
    simp only at h
    split at h
    · exact absurd h (returns_ne_dispatch _ _)
    split at h
    · exact absurd h (returns_ne_dispatch _ _)
    · -- this opcode has a case of its own
      obtain rfl : opcode = cAuthdata := by simpa [anoubisProcessDispatcher] using h
      cases hop
  | request =>
    rw [hop] at h
    exact absurd h (processRequest_ne_dispatch env s buf opcode token _)
  | reply =>
    rw [hop] at h
    simp only at h
    split at h
    · cases h
    · exact absurd h (returns_ne_dispatch _ _)
  | delegate =>
    rw [hop] at h
    simp only at h
    split at h
    · cases h
    · exact absurd h (returns_ne_dispatch _ _)
  | _ =>
    rw [hop] at h
    simp at h

/-- The dispatcher of AUTHDATA runs on an object in one of its first two states, and on an open channel. -/
theorem process_authdata {buf : Bytes} (h : (anoubisServerProcess env s buf).1 = .dispatch cAuthdata) :
    s.chan = true ∧ s.flagAuth = false ∧ (∃ a, s.auth = some a ∧ (a.state = .init ∨ a.state = .inprogress)) ∧
      (anoubisServerProcess env s buf).2.auth = s.auth ∧ (anoubisServerProcess env s buf).2.chan = true := by
  have hend : ∀ {opcode : ℕ} {token : Bytes}, s.chan = true →
      (processOpcode env (s.emit (.recv (u32 buf 0))) buf opcode token).1 = .dispatch cAuthdata →
      s.chan = true ∧ s.flagAuth = false ∧
        (∃ a, s.auth = some a ∧ (a.state = .init ∨ a.state = .inprogress)) ∧
        (processOpcode env (s.emit (.recv (u32 buf 0))) buf opcode token).2.auth = s.auth ∧
        (processOpcode env (s.emit (.recv (u32 buf 0))) buf opcode token).2.chan = true := by
    intro opcode token hchan hd
    obtain ⟨hflag, ha, heq⟩ := processOpcode_authdata hd
    rw [heq]
    exact ⟨hchan, hflag, ha, rfl, hchan⟩
  simp only [anoubisServerProcess] at h ⊢
  split_ifs at h ⊢ with h₁ h₂ h₃ h₄ h₅ h₆
  · exact absurd h (returns_ne_dispatch _ _)
  · refine hend ?_ h
    simp only [Bool.or_eq_true, not_or] at h₂
    simpa using h₂.1.1
  · refine hend ?_ h
    simp only [Bool.or_eq_true, not_or] at h₂
    simpa using h₂.1.1

/-- A message that is put on an open channel, and all that follows. -/
theorem sent_of_send (env : Env) (s : Server P) (m : Out) :
    ∃ u, (u = s ∨ u = s.emit (.sent m)) ∧ (s.chan = true → s.fd = true → u = s.emit (.sent m)) ∧
      Effects false u (anoubisServerSend env s m).2 := by
  have hfirst : ∃ u, (u = s ∨ u = s.emit (.sent m)) ∧ (s.chan = true → s.fd = true → u = s.emit (.sent m)) ∧
      (if s.chan then accSendmsg env s m else (false, s)).2 = u := by
    refine ⟨_, ?_, fun hc hf => ?_, rfl⟩
    · rw [accSendmsg]
      split
      · split
        · exact .inr rfl
        · exact .inl rfl
      · exact .inl rfl
    · rw [if_pos hc, accSendmsg, if_pos hf]
  obtain ⟨u, hu, hopen, hr⟩ := hfirst
  refine ⟨u, hu, hopen, ?_⟩
  simp only [anoubisServerSend]
  revert hr
  generalize (if s.chan then accSendmsg env s m else (false, s)) = r
  rintro rfl
  split
  · exact .refl
  · exact effects_sendTail env r.2

/-- The end of an authentication: its AUTHREPLY is sent, or the channel is closed. -/
theorem sendAuthreply_spec (env : Env) (t : Server P) (error uid : ℕ) {t' : Server P}
    (h : t' = if (anoubisServerSend env t (.authreply error uid)).1 < 0 then
      channelClose { (anoubisServerSend env t (.authreply error uid)).2 with flagError := true }
      else (anoubisServerSend env t (.authreply error uid)).2) :
    t'.auth = t.auth ∧ t'.flagAuth = t.flagAuth ∧ t'.authUid = t.authUid ∧ (t'.chan = true → t.chan = true) ∧
      (Wired t → Wired t') ∧ (t.chan = true → Wired t → replies t' = replies t ++ [error]) := by
  obtain ⟨u, hu, hopen, heff⟩ := sent_of_send env t (.authreply error uid)
  have hend : ∃ v : Server P, Keeps false u v ∧ (t' = v ∨ t' = channelClose { v with flagError := true }) := by
    refine ⟨_, keeps_effects heff, ?_⟩
    rw [h]
    split
    · exact .inr rfl
    · exact .inl rfl
  obtain ⟨v, hk, ht'⟩ := hend
  have hclose : Keeps false v t' := by
    rcases ht' with rfl | rfl
    · exact keeps_effects .refl
    · have hc := keeps_effect (.close (b := false) { v with flagError := true })
      exact ⟨hc.replies, hc.flagAuth, hc.authUid, hc.auth, hc.chan, hc.wired⟩
  have hsent : u.auth = t.auth ∧ u.flagAuth = t.flagAuth ∧ u.authUid = t.authUid ∧ u.chan = t.chan ∧
      u.fd = t.fd := by
    rcases hu with rfl | rfl <;> exact ⟨rfl, rfl, rfl, rfl, rfl⟩
  obtain ⟨hauth, hflag, huid, hchan, hfd⟩ := hsent
  refine ⟨?_, ?_, ?_, fun hc => ?_, fun hw => ?_, fun hc hw => ?_⟩
  · rw [hclose.auth_eq, hk.auth_eq, hauth]
  · rw [hclose.flagAuth, hk.flagAuth, hflag]
  · rw [hclose.authUid, hk.authUid, huid]
  · exact hchan ▸ hk.chan (hclose.chan hc)
  · refine hclose.wired (hk.wired fun hc => ?_)
    rw [hfd]
    exact hw (hchan ▸ hc)
  · rw [hclose.replies, hk.replies, hopen hc (hw hc)]
    simp [replies, Server.emit, List.filterMap_append, Event.authreply]

theorem finishCallback_spec {a : Auth P} (ha : s.auth = some a) (h : anoubisAuthFinishCallback env s = some s') :
    s'.auth = none ∧ (s'.chan = true → s.chan = true) ∧ (Wired s → Wired s') ∧
      ((a.state = .success ∧ s'.flagAuth = true ∧ s'.authUid = a.uid) ∨
        (a.state = .failure ∧ s'.flagAuth = s.flagAuth ∧ s'.authUid = s.authUid)) ∧ (s.chan = true → Wired s →
        replies s' = replies s ++ [if a.state = .success then 0 else a.error]) := by
  rw [anoubisAuthFinishCallback, ha, Option.bind_some] at h
  split at h
  · rename_i hst
    obtain ⟨hauth, hflag, huid, hchan, hwired, hrep⟩ := sendAuthreply_spec env _ 0 a.uid (Option.some.inj h).symm
    refine ⟨hauth, hchan, hwired, .inl ⟨hst, hflag, huid⟩, fun hc hw => ?_⟩
    rw [hrep hc hw, hst]
    simp [replies, Server.emit, List.filterMap_append, Event.authreply]
  · rename_i hst
    obtain ⟨hauth, hflag, huid, hchan, hwired, hrep⟩ :=
      sendAuthreply_spec env _ a.error uidDefault (Option.some.inj h).symm
    refine ⟨hauth, hchan, hwired, .inr ⟨hst, hflag, huid⟩, fun hc hw => ?_⟩
    rw [hrep hc hw, hst]
    simp [replies]
  · cases h

end Anoubis.Connection

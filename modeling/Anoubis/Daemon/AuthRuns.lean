import Anoubis.Daemon.AuthSteps

/-! Authentications from beginning to end.

    An answer of the master takes the request out of the table, and the callback finds its connection as it
    was when the request was made, or ended. From there on every step keeps the invariant, and what it says
    of the log is true of every run. -/

namespace Anoubis.Daemon.Auth

open Function

open Option

open Anoubis.Lib Anoubis.Proto Anoubis.Connection List

variable {K : Type} {sigOk : K → Bytes → Bytes → Bool} {p : Prop} {past : List (Event K)} {k : Option ℕ}
  {y : Sys K}

/-! ### Answers of the master -/

variable {m : ToSession} {rest : List ToSession} {comm : PolicyComm.Comm} {error id : ℕ}
variable {log : List (Event K)} {conn : Conn} {a : Auth Challenge} {env : Env} {y' : Sys K} {c : Challenge}

/-- A message of the master takes its request out of the table. -/
theorem inv_taken (h : Inv sigOk p past none y) (hm : y.m2s = m :: rest)
    (ha : PolicyComm.answer y.comm m.token error [] true = .ok comm)
    (hk : ∀ f id, Waits y.comm f id m.token → k = some id) :
    Inv sigOk p past k { y with m2s := rest, comm := comm } := by
  obtain ⟨hhomed, htok, hwaits⟩ := waits_answer h.homed ha
  refine ⟨?_, hhomed, fun f id t hw => ?_, fun f id t hw => ?_, h.fresh, h.gone, h.sent, fun m' hm' => ?_,
    fun id conn hc hne => ?_⟩
  · rw [htok]
    exact h.book
  · exact h.opened f id t ((hwaits f id t).mp hw).1
  · obtain ⟨hw, hne⟩ := (hwaits f id t).mp hw
    rcases h.flight f id t hw with hs | ⟨m', hm', ht⟩
    · exact .inl hs
    · rw [hm] at hm'
      rcases mem_cons.mp hm' with rfl | hm'
      · exact absurd ht.symm hne
      · exact .inr ⟨m', hm', ht⟩
  · refine h.back m' ?_
    rw [hm]
    exact mem_cons_of_mem m hm'
  · refine sound_congr (h.conns id conn hc nofun) fun f t => ?_
    rw [hwaits]
    refine and_iff_left_of_imp fun hw => ?_
    rintro rfl
    exact hne (hk f id hw)

/-- A message that no request waits for. -/
theorem inv_drop (h : Inv sigOk p past none y) (hm : y.m2s = m :: rest)
    (hno : ∀ f id, ¬ Waits y.comm f id m.token) : Inv sigOk p past none { y with m2s := rest } := by
  refine { h with flight := fun f id t hw => ?_, back := fun m' hm' => ?_ }
  · rcases h.flight f id t hw with hs | ⟨m', hm', rfl⟩
    · exact .inl hs
    · rw [hm] at hm'
      rcases mem_cons.mp hm' with rfl | hm'
      · exact absurd hw (hno f id)
      · exact .inr ⟨m', hm', rfl⟩
  · refine h.back m' ?_
    rw [hm]
    exact mem_cons_of_mem m hm'

variable {t obj uid euid : ℕ}

/-- What an attempt waits for: AUTH_CHALLENGE for the request, or AUTH_RESULT for the signature. -/
theorem Stage.waits {f : ℕ} (h : Stage log comm id conn a) (hh : Homed comm) (hs : a.state = .inprogress)
    (hchan : conn.server.chan = true) (hw : Waits comm f id t) : (f = 0 ∧ .request id conn.obj t conn.euid ∈ log) ∨
    (f = 1 ∧ a.authPrivate = none ∧ ∃ iv c sig, .verify id conn.obj t conn.euid iv c sig ∈ log) := by
  cases h with
  | init hs' => exact AuthState.noConfusion (hs'.symm.trans hs)
  | waiting _ _ hwait =>
    obtain ⟨t', hw', hm⟩ := hwait hchan
    obtain ⟨rfl, rfl⟩ := hh.unique hw hw'
    exact .inl ⟨rfl, hm⟩
  | challenged _ _ _ _ hidle => exact absurd hw (hidle f t)
  | verifying _ hp hwait =>
    obtain ⟨t', iv, c, sig, hw', hm⟩ := hwait hchan
    obtain ⟨rfl, rfl⟩ := hh.unique hw hw'
    exact .inr ⟨rfl, hp, iv, c, sig, hm⟩

/-- An AUTH_CHALLENGE finds the attempt that has asked for it. -/
theorem Stage.asked (h : Stage log comm id conn a) (hh : Homed comm) (hs : a.state = .inprogress)
    (hchan : conn.server.chan = true) (hw : Waits comm 0 id t) : .request id conn.obj t conn.euid ∈ log :=
  (h.waits hh hs hchan hw).elim And.right fun h1 => absurd h1.1 Nat.zero_ne_one

/-- An AUTH_RESULT finds the attempt whose signature was sent. -/
theorem Stage.signed (h : Stage log comm id conn a) (hh : Homed comm) (hs : a.state = .inprogress)
    (hchan : conn.server.chan = true) (hw : Waits comm 1 id t) :
    a.authPrivate = none ∧ ∃ iv c sig, .verify id conn.obj t conn.euid iv c sig ∈ log :=
  (h.waits hh hs hchan hw).elim (fun h0 => absurd h0.1 Nat.one_ne_zero) And.right

/-- The connection is left as it is: its attempt does not wait. -/
theorem Inv.leave (h : Inv sigOk p past (some id) y) (hc : y.conns id = some conn) (hheld : Held y.log id conn)
    (hinit : ∀ a, conn.server.auth = some a → a.state = .init ∧ a.authPrivate = none) : Inv sigOk p past none y := by
  refine h.settle fun conn' hc' => ?_
  cases hc.symm.trans hc'
  exact ⟨hheld, fun a ha => .init (hinit a ha).1 (hinit a ha).2⟩

theorem Stage.init_of_ne (h : Stage log comm id conn a) (hs : a.state ≠ .inprogress) :
    a.state = .init ∧ a.authPrivate = none := by
  cases h with
  | init hs' hp => exact ⟨hs', hp⟩
  | waiting hs' => exact absurd hs' hs
  | challenged hs' => exact absurd hs' hs
  | verifying hs' => exact absurd hs' hs

/-- The challenge is saved and sent. -/
theorem inv_saveChallenge {mode : AuthMode} {cert : Option (Cert K)} (h : Inv sigOk p past (some id) y)
    (hc : y.conns id = some conn) (hheld : Held y.log id conn) (ha : conn.server.auth = some a)
    (hst : a.state = .inprogress) (hidle : ∀ f t, ¬ Waits y.comm f id t)
    (hevents : (challenging id conn.obj conn.euid mode cert c).Sublist y.log) (hfor : c.For conn.euid)
    (hs : saveChallenge env y id conn.obj c = some y') : Inv sigOk p past none y' := by
  have hsome : conn.server.auth.isSome = true := by rw [ha]; rfl
  have hcur := (hheld.auth hsome).2.2
  have htouch := inv_touch h (fun _ => hcur)
  have hheld₁ := held_concat (x := .touch id conn.obj) hheld nofun
  have hemit := inv_emit htouch (x := .challenge id conn.obj) (.inl rfl) trivial nofun
    fun _ => (hheld₁.auth hsome).2.2
  have hheld₂ := held_concat (x := .challenge id conn.obj) hheld₁ nofun
  rw [saveChallenge] at hs
  have hconns : ((y.emit (.touch id conn.obj)).emit (.challenge id conn.obj)).conns id = some conn := hc
  simp only [hconns, map_some, ha] at hs
  cases hs
  generalize hv : ({ conn.server with auth := some { a with authPrivate := some c } } : Server Challenge) = v
  have hk : Keeps false v (accSendmsg env v .other).2 := keeps_effects (effects_accSendmsg env v rfl)
  have hauth : v.auth = some { a with authPrivate := some c } := by rw [← hv]
  have hset : Held _ id { conn with server := v } := hv ▸ held_setAuth hheld₂ hsome _
  have hsent := held_keeps hset hk
  refine inv_put hemit hc rfl hsent fun a' ha' => ?_
  rw [hk.auth_eq, hauth] at ha'
  cases ha'
  refine .challenged hst rfl (sublist_concat (sublist_concat hevents _) _) hfor fun f t hw => ?_
  obtain ⟨-, -, hwaits⟩ := waits_put (y := (y.emit (.touch id conn.obj)).emit (.challenge id conn.obj))
    h.homed id conn (accSendmsg env v .other).2
  exact hidle f t ((hwaits f id t).mp hw).1

/-- A challenge goes to attempts that are ready for one. -/
def CalmAt (conn : Conn) (c : Challenge) : Prop :=
  ∀ a ∈ conn.server.auth, a.state = .inprogress → c.error = 0 → conn.euid = c.authUid →
    ¬ (c.challenge = [] ∧ c.keyid = []) → a.authType = some transportandkey

instance (conn : Conn) (c : Challenge) : Decidable (CalmAt conn c) := inferInstanceAs (Decidable (∀ a ∈ _, _))

/-- The master's answer belongs to the attempt. -/
theorem Inv.answered (h : Inv sigOk p past k y) (hback : Replied sigOk y.log (.challenge c))
    (hreq : .request id obj c.token uid ∈ y.log) :
    c.authUid = uid ∧ ∃ mode cert, (challenging id obj uid mode cert c).Sublist y.log ∧
      (c.error = 0 → c.Free uid mode cert ∨ c.For uid) := by
  obtain ⟨id', obj', mode, cert, hevents, hres⟩ := hback
  have hmem : .request id' obj' c.token c.authUid ∈ y.log := hevents.subset (by simp [challenging, asking])
  obtain ⟨rfl, rfl, -, rfl⟩ := Event.request.inj (h.book.own _ hreq rfl _ hmem rfl)
  exact ⟨rfl, mode, cert, hevents, hres⟩

theorem inv_dispatchAuthChallenge (h : Inv sigOk p past none y) (hm : y.m2s = .challenge c :: rest)
    (hw : Waits y.comm 0 id c.token) (ha : PolicyComm.answer y.comm c.token error [] true = .ok comm)
    (hc : y.conns id = some conn) (hcalm : p → CalmAt conn c)
    (hs : dispatchAuthChallenge env { y with m2s := rest, comm := comm } id c = some y') :
    Inv sigOk p past none y' := by
  have hchan : conn.server.chan = true := by
    obtain ⟨conn', hc', hopen⟩ := h.opened 0 id c.token hw
    rwa [some.inj (hc.symm.trans hc')]
  have hsound := h.conns id conn hc nofun
  have hback := h.back (.challenge c) (by rw [hm]; exact mem_cons_self)
  have htaken : Inv sigOk p past (some id) { y with m2s := rest, comm := comm } :=
    inv_taken h hm ha fun f id' hw' => congrArg some (h.homed.owner hw hw')
  have hidle : ∀ f t, ¬ Waits comm f id t := by
    intro f t hwait
    obtain ⟨hwait, hne⟩ := ((waits_answer h.homed ha).2.2 f id t).mp hwait
    exact hne (h.homed.unique hwait hw).2
  have hconn : ({ y with m2s := rest, comm := comm } : Sys K).conns id = some conn := hc
  rw [dispatchAuthChallenge, hconn, bind_some] at hs
  split at hs
  · rename_i hnone
    cases hs
    exact htaken.leave hconn hsound.held fun a ha' => by rw [hnone] at ha'; cases ha'
  rename_i a hauth
  have hsome : conn.server.auth.isSome = true := by rw [hauth]; rfl
  have htouch := inv_touch htaken (fun _ => (hsound.held.auth hsome).2.2)
  have hheld := held_concat (x := .touch id conn.obj) hsound.held nofun
  simp only at hs
  split at hs
  · rename_i hst
    cases hs
    refine htouch.leave hc hheld fun a' ha' => ?_
    cases hauth.symm.trans ha'
    exact (hsound.stage a hauth).init_of_ne hst
  rename_i hst
  have hst := not_not.mp hst
  have hreq := (hsound.stage a hauth).asked h.homed hst hchan hw
  obtain ⟨huid, mode, cert, hevents, hres⟩ := h.answered hback hreq
  have hevents := sublist_concat hevents (.touch id conn.obj)
  have hown : Own (y.log ++ [.touch id conn.obj]) (.request id conn.obj c.token conn.euid) :=
    htouch.book.own _ (mem_append_left _ hreq) rfl
  split at hs
  · -- no other user's answer gets here
    rename_i herr
    have herr : c.error ≠ 0 := herr.resolve_right fun hne => hne huid.symm
    exact (inv_finish htouch hc hheld hsome hchan ⟨fun hst => AuthState.noConfusion hst, fun _ => herr⟩ hs).1
  rename_i herr
  simp only [not_or, not_not] at herr
  split at hs
  · rename_i hempty
    refine (inv_finish htouch hc hheld hsome hchan ⟨fun _ => ⟨rfl, ?_⟩, fun hst => AuthState.noConfusion hst⟩ hs).1
    rcases hres herr.1 with hfree | hfor
    · exact .passed hevents hown hfree
    · exact absurd hempty.1 hfor.challenge
  rename_i hchall
  split at hs
  · rename_i htype
    have hno : ¬ p := fun hp => htype (hcalm hp a hauth hst herr.1 herr.2 hchall)
    obtain ⟨y₁, hfin, hs⟩ := bind_eq_some_iff.mp hs
    obtain ⟨hinv, -, server, hc₁, hnone⟩ := inv_finish htouch hc hheld hsome hchan
      ⟨fun hst => AuthState.noConfusion hst, fun _ => by show eperm ≠ 0; decide⟩ hfin
    have htouch₁ : Inv sigOk p past none (y₁.emit (.touch id conn.obj)) :=
      inv_touch hinv fun hp => absurd hp hno
    have hemit := inv_emit htouch₁ (x := .challenge id conn.obj) (.inl rfl) trivial nofun
      fun hp => absurd hp hno
    rw [saveChallenge] at hs
    have hc₂ : ((y₁.emit (.touch id conn.obj)).emit (.challenge id conn.obj)).conns id =
      some { conn with server := server } := hc₁
    simp only [hc₂, map_some, hnone] at hs
    cases hs
    exact inv_keeps hemit hc₂ (keeps_effects (effects_accSendmsg env server rfl))
  · rcases hres herr.1 with hfree | hfor
    · exact absurd ⟨hfree.challenge, hfree.keyid⟩ hchall
    · exact inv_saveChallenge htouch hc hheld hauth hst hidle hevents hfor hs

theorem inv_dispatchAuthResult {err : ℕ} (h : Inv sigOk p past none y) (hm : y.m2s = m :: rest)
    (hw : Waits y.comm 1 id m.token) (ha : PolicyComm.answer y.comm m.token err [] true = .ok comm)
    (hgrant : ∀ obj uid iv c sig, .verify id obj m.token uid iv c sig ∈ y.log → error = 0 →
      Granted sigOk y.log id obj uid)
    (hs : dispatchAuthResult env { y with m2s := rest, comm := comm } id error = some y') :
    Inv sigOk p past none y' := by
  obtain ⟨conn, hc, hchan⟩ := h.opened 1 id m.token hw
  have hsound := h.conns id conn hc nofun
  have htaken : Inv sigOk p past (some id) { y with m2s := rest, comm := comm } :=
    inv_taken h hm ha fun f id' hw' => congrArg some (h.homed.owner hw hw')
  have hconn : ({ y with m2s := rest, comm := comm } : Sys K).conns id = some conn := hc
  rw [dispatchAuthResult, hconn, bind_some] at hs
  split at hs
  · rename_i hnone
    cases hs
    exact htaken.leave hconn hsound.held fun a ha' => by rw [hnone] at ha'; cases ha'
  rename_i a hauth
  have hsome : conn.server.auth.isSome = true := by rw [hauth]; rfl
  have htouch := inv_touch htaken (fun _ => (hsound.held.auth hsome).2.2)
  have hheld := held_concat (x := .touch id conn.obj) hsound.held nofun
  have hstage := hsound.stage a hauth
  simp only at hs
  split at hs
  · rename_i hst
    cases hs
    refine htouch.leave hc hheld fun a' ha' => ?_
    cases hauth.symm.trans ha'
    refine hstage.init_of_ne fun hin => ?_
    rw [(hstage.signed h.homed hin hchan hw).1] at hst
    rcases hst with hst | hst
    · exact hst hin
    · cases hst
  rename_i hst
  simp only [not_or, not_not] at hst
  obtain ⟨-, iv, c, sig, hver⟩ := hstage.signed h.homed hst.1 hchan hw
  split at hs
  · rename_i herr
    exact (inv_finish htouch hc hheld hsome hchan ⟨fun hst => AuthState.noConfusion hst, fun _ => herr⟩ hs).1
  · rename_i herr
    refine (inv_finish htouch hc hheld hsome hchan ⟨fun _ => ⟨rfl, ?_⟩, fun hst => AuthState.noConfusion hst⟩ hs).1
    exact granted_concat (hgrant conn.obj conn.euid iv c sig hver (not_not.mp herr)) rfl

/-- The answer that the session engine handles next, where it is for an attempt that waits for a
    challenge, and its connection. -/
def nextChallenge (y : Sys K) : Option (Conn × Challenge) :=
  match y.m2s with
  | .challenge c :: _ =>
    match (y.comm.req.find? (fun r => r.token == c.token)).map PolicyComm.Request.callback with
    | some (.reply 0 id) => (y.conns id).map (fun conn => (conn, c))
    | _ => none
  | _ => none

/-- The condition on a step. -/
def Calm (y : Sys K) : Op K → Prop
  | .deliver => ∀ x ∈ nextChallenge y, CalmAt x.1 x.2
  | _ => True

instance (y : Sys K) (op : Op K) : Decidable (Calm y op) :=
  match op with
  | .deliver => inferInstanceAs (Decidable (∀ x ∈ nextChallenge y, CalmAt x.1 x.2))
  | .connect _ | .client _ _ | .master _ | .other _ | .disconnect _ => isTrue trivial

/-- A request that is none of an authentication. -/
theorem not_waits_of_find {c : PolicyComm.Comm} (hh : Homed c) {r : PolicyComm.Request}
    (hf : c.req.find? (fun r => r.token == t) = some r) (h0 : ∀ id, r.callback ≠ .reply 0 id)
    (h1 : ∀ id, r.callback ≠ .reply 1 id) (f id : ℕ) : ¬ Waits c f id t := by
  rintro ⟨hlt, r', hr', ht, hcb⟩
  have ht₀ : r.token = t := by simpa using find?_some hf
  obtain rfl : r = r' :=
    inj_on_of_nodup_map hh.table.tokens (mem_of_find?_eq_some hf) hr' (ht₀.trans ht.symm)
  rcases (by omega : f = 0 ∨ f = 1) with rfl | rfl
  · exact h0 id hcb
  · exact h1 id hcb

/-- The master's result belongs to the attempt. -/
theorem Inv.verified {token uid' : ℕ} {iv c sig : Bytes} (h : Inv sigOk p past k y)
    (hback : Replied sigOk y.log (.result token uid' error)) (hver : .verify id obj token uid iv c sig ∈ y.log)
    (herr : error = 0) : Granted sigOk y.log id obj uid := by
  obtain ⟨id', obj', mode, cert, c', iv', sig', cert', ok, hevents, hfor, hok⟩ := hback
  have hmem : .verify id' obj' token uid' iv' c'.challenge sig' ∈ y.log :=
    hevents.subset (by simp [verifying, signing])
  obtain ⟨rfl, rfl, -, rfl, rfl, rfl, rfl⟩ := Event.verify.inj (h.book.own _ hver rfl _ hmem rfl)
  have hreq : .request id' obj' c'.token uid' ∈ y.log :=
    hevents.subset (by simp [verifying, signing, challenging, asking])
  obtain ⟨rfl, c'', key, rfl, hkey, hsig⟩ := hok herr
  exact .signed hevents (h.book.own _ hreq rfl) (h.book.own _ hmem rfl) hfor hkey hsig

theorem inv_deliver (h : Inv sigOk p past none y) (hm : y.m2s = m :: rest) (hcalm : p → Calm y .deliver)
    (hs : dispatchM2s env { y with m2s := rest } m = some y') : Inv sigOk p past none y' := by
  cases hf : y.comm.req.find? (fun r => r.token == m.token) with
  | none =>
    have hno : ∀ f id, ¬ Waits y.comm f id m.token := by
      rintro f id ⟨-, r, hr, ht, -⟩
      exact absurd ht (by simpa using find?_eq_none.mp hf r hr)
    have hy' : y' = { y with m2s := rest } := by
      cases m with
      | challenge c =>
        have hf' : y.comm.req.find? (fun r => r.token == c.token) = none := hf
        simpa [dispatchM2s, hf'] using hs.symm
      | result token uid error =>
        have hf' : y.comm.req.find? (fun r => r.token == token) = none := hf
        simpa [dispatchM2s, hf'] using hs.symm
    rw [hy']
    exact inv_drop h hm hno
  | some r =>
    cases m with
    | challenge c =>
      obtain ⟨comm, ha⟩ := answer_found h.homed c.error hf
      have hf' : y.comm.req.find? (fun r => r.token == c.token) = some r := hf
      have ha' : PolicyComm.answer y.comm c.token c.error [] true = .ok comm := ha
      simp only [dispatchM2s, hf', ha'] at hs
      split at hs
      · rename_i id hcb
        have hw := waits_of_find hf hcb (by decide)
        obtain ⟨conn, hc, -⟩ := h.opened 0 id _ hw
        have hnext : nextChallenge y = some (conn, c) := by simp [nextChallenge, hm, hf', hcb, hc]
        exact inv_dispatchAuthChallenge h hm hw ha hc (fun hp => hcalm hp (conn, c) hnext) hs
      · rename_i id hcb
        refine inv_dispatchAuthResult h hm (waits_of_find hf hcb (by decide)) ha ?_ hs
        intro obj uid iv c' sig hver
        obtain ⟨id', obj', mode, cert, hevents, -⟩ := h.back (.challenge c) (by rw [hm]; exact mem_cons_self)
        have hreq : .request id' obj' c.token c.authUid ∈ y.log :=
          hevents.subset (by simp [challenging, asking])
        cases h.book.own _ hver rfl _ hreq rfl
      · rename_i h0 h1
        cases hs
        exact inv_taken h hm ha fun f id hw => absurd hw (not_waits_of_find h.homed hf h0 h1 f id)
    | result token uid error =>
      obtain ⟨comm, ha⟩ := answer_found h.homed error hf
      have hf' : y.comm.req.find? (fun r => r.token == token) = some r := hf
      have ha' : PolicyComm.answer y.comm token error [] true = .ok comm := ha
      simp only [dispatchM2s, hf', ha'] at hs
      split at hs
      · rename_i id hcb
        refine inv_dispatchAuthResult h hm (waits_of_find hf hcb (by decide)) ha ?_ hs
        intro obj uid' iv c sig hver herr
        exact h.verified (h.back _ (by rw [hm]; exact mem_cons_self)) hver herr
      · cases hs
      · rename_i h1 h0
        cases hs
        exact inv_taken h hm ha fun f id hw => absurd hw (not_waits_of_find h.homed hf h0 h1 f id)

/-! ### The other steps -/

theorem inv_client {buf : Bytes} (h : Inv sigOk p past none y) (hs : sessionRxclient env y id buf = some y') :
    Inv sigOk p past none y' := by
  obtain ⟨conn, hc, hs⟩ := bind_eq_some_iff.mp hs
  have hk := keeps_effects (effects_process env conn.server buf)
  generalize hr : anoubisServerProcess env conn.server buf = r at hs hk
  simp only at hs
  -- the server object first, and then the dispatcher
  have hput : ∀ y₁ : Sys K, (if conn.server.auth.isNone && r.2.auth.isSome then
      ({ y with nextObj := y.nextObj + 1 }.emit (.attempt id y.nextObj)).put id { conn with obj := y.nextObj } r.2
      else y.put id conn r.2) = y₁ → Inv sigOk p past none y₁ ∧
        ∃ conn₁, y₁.conns id = some conn₁ ∧ conn₁.server = r.2 := by
    rintro y₁ rfl
    split
    · rename_i hnew
      simp only [Bool.and_eq_true, isNone_iff_eq_none] at hnew
      refine ⟨?_, _, update_self .., rfl⟩
      rcases hk.auth with hsame | ⟨-, hnone, hflag, hauth⟩
      · rw [hsame, hnew.1] at hnew
        cases hnew.2
      · exact inv_attempt h hc hk hnone hflag hauth
    · rename_i hold
      refine ⟨inv_keeps h hc ⟨hk.replies, hk.flagAuth, hk.authUid, ?_, hk.chan, hk.wired⟩, _, update_self .., rfl⟩
      rcases hk.auth with hsame | ⟨-, hnone, -, hauth⟩
      · exact .inl hsame
      · rw [hnone, hauth] at hold
        exact absurd rfl hold
  obtain ⟨hinv, conn₁, hc₁, hserver⟩ := hput _ rfl
  split at hs
  · rename_i hdisp
    rw [hc₁, bind_some] at hs
    rw [← hr] at hdisp hserver
    have hchan := (process_authdata hdisp).2.2.2.2
    exact inv_dispatchAuthdata hinv hc₁ (hserver ▸ hchan) hs
  · cases hs
    exact hinv

/-- A connection that nothing is known of. -/
theorem held_new {server : Server Challenge} (hnew : ∀ x ∈ log, x.about ≠ some id)
    (hk : Keeps false newServer server) : Held (log ++ [.connect id euid]) id ⟨euid, server, 0⟩ := by
  have hauth : server.auth = none := hk.auth_eq
  have hflag : server.flagAuth = false := hk.flagAuth
  have hnone : ∀ x ∈ log ++ [.connect id euid], x.about = some id → x = .connect id euid := by
    intro x hm hab
    rcases mem_append.mp hm with hm | hm
    · exact absurd hab (hnew x hm)
    · exact mem_singleton.mp hm
  refine ⟨mem_append_right _ (mem_singleton.mpr rfl), hk.wired fun _ => rfl, ?_, ?_, ?_, ?_, ?_⟩
  · refine iff_of_false (by simp [hflag]) ?_
    rintro ⟨obj, error, uid, hm⟩
    cases hnone _ hm rfl
  · simp [hflag]
  · rw [hk.replies]
    refine (filterMap_eq_nil_iff.mpr fun x hm => ?_).symm
    cases x with
    | finish id' obj error ok uid =>
      rw [Event.result, if_neg]
      rintro rfl
      cases hnone _ hm rfl
    | _ => rfl
  · intro obj hm
    cases hnone _ hm rfl
  · simp [hauth]

theorem inv_connect (h : Inv sigOk p past none y) (hs : sessionConnect env y euid = some y') :
    Inv sigOk p past none y' := by
  obtain ⟨r, hr, rfl⟩ := map_eq_some_iff.mp hs
  have hserver : Keeps false newServer r.2 := by
    rw [anoubisServerStart] at hr
    split at hr
    · cases hr
    cases hr
    have hk := keeps_effects (effects_send (b := false) env newServer (m := .hello) rfl)
    split
    · exact hk
    · exact ⟨hk.replies, hk.flagAuth, hk.authUid, hk.auth, hk.chan, hk.wired⟩
  split
  · exact h
  have hself : Function.update y.conns y.nextConn (some ⟨euid, r.2, 0⟩) y.nextConn = some ⟨euid, r.2, 0⟩ :=
    update_self ..
  have hother : ∀ id, id ≠ y.nextConn →
      Function.update y.conns y.nextConn (some ⟨euid, r.2, 0⟩) id = y.conns id :=
    fun id hne => update_of_ne hne ..
  have hnew : ∀ x ∈ y.log, x.about ≠ some y.nextConn := by
    intro x hx he
    exact absurd (h.book.ids x hx _ he) (lt_irrefl _)
  have hwork : Inv sigOk p past (some y.nextConn) { y with
      conns := Function.update y.conns y.nextConn (some ⟨euid, r.2, 0⟩)
      nextConn := y.nextConn + 1 } := by
    refine ⟨book_mono h.book le_rfl le_rfl (Nat.le_succ _), h.homed, fun f id t hw => ?_, h.flight,
      fun id hle => ?_, fun id hlt hnone => ?_, h.sent, h.back, fun id conn hc hk => ?_⟩
    · obtain ⟨conn, hc, hopen⟩ := h.opened f id t hw
      exact ⟨conn, (hother id (h.lt_nextConn hc).ne).trans hc, hopen⟩
    · exact (hother id (Nat.lt_of_succ_le hle).ne').trans (h.fresh id (Nat.le_of_succ_le hle))
    · by_cases he : id = y.nextConn
      · subst he
        cases hself.symm.trans hnone
      · exact h.gone id (lt_of_le_of_ne (Nat.lt_succ_iff.mp hlt) he) ((hother id he).symm.trans hnone)
    · have hne : id ≠ y.nextConn := fun he => hk (congrArg some he.symm)
      exact h.conns id conn ((hother id hne).symm.trans hc) nofun
  have hemit := inv_emit hwork (x := .connect y.nextConn euid) (.inr rfl) (fun uid hm => hnew _ hm rfl)
    (fun id he => some.inj he ▸ Nat.lt_succ_self _) trivial
  refine hemit.settle fun conn hc => ?_
  cases hself.symm.trans hc
  refine ⟨held_new hnew hserver, fun a ha => ?_⟩
  cases hserver.auth_eq.symm.trans ha

theorem inv_disconnect (h : Inv sigOk p past none y) (hs : sessionDestroy y id = some y') :
    Inv sigOk p past none y' := by
  obtain ⟨conn, hc, rfl⟩ := map_eq_some_iff.mp hs
  have hself : Function.update y.conns id none id = none := update_self ..
  have hother : ∀ id', id' ≠ id → Function.update y.conns id none id' = y.conns id' :=
    fun id' hne => update_of_ne hne ..
  have hcomm : ∃ comm, (if conn.server.chan then PolicyComm.destroy y.comm id else y.comm) = comm ∧
      Homed comm ∧ comm.nexttoken = y.comm.nexttoken ∧
      ∀ f id' t, Waits comm f id' t ↔ Waits y.comm f id' t ∧ id' ≠ id := by
    refine ⟨_, rfl, ?_⟩
    split
    · exact ⟨(waits_destroy h.homed id).1, nexttoken_destroy y.comm id, (waits_destroy h.homed id).2⟩
    · rename_i hclosed
      refine ⟨h.homed, rfl, fun f id' t => ⟨fun hw => ⟨hw, ?_⟩, And.left⟩⟩
      rintro rfl
      obtain ⟨conn', hc', hopen⟩ := h.opened f id' t hw
      rw [some.inj (hc'.symm.trans hc)] at hopen
      exact hclosed hopen
  obtain ⟨comm, heq, hhomed, htok, hwaits⟩ := hcomm
  simp only [heq]
  refine ⟨?_, hhomed, fun f id' t hw => ?_, fun f id' t hw => ?_, fun id' hle => ?_, fun id' hlt hnone => ?_,
    fun m hm => backed_concat (h.sent m hm) _, fun m hm => replied_concat (h.back m hm) _,
    fun id' conn' hc' _ => ?_⟩
  · have hbook := book_concat h.book (x := .disconnect id) trivial nofun trivial
    rw [← htok] at hbook
    exact hbook
  · obtain ⟨hw, hne⟩ := (hwaits f id' t).mp hw
    obtain ⟨conn', hc', hopen⟩ := h.opened f id' t hw
    exact ⟨conn', (hother id' hne).trans hc', hopen⟩
  · exact h.flight f id' t ((hwaits f id' t).mp hw).1
  · by_cases he : id' = id
    · subst he
      exact hself
    · exact (hother id' he).trans (h.fresh id' hle)
  · by_cases he : id' = id
    · subst he
      exact mem_append_right _ (mem_singleton.mpr rfl)
    · exact mem_append_left _ (h.gone id' hlt ((hother id' he).symm.trans hnone))
  · have hne : id' ≠ id := by
      rintro rfl
      cases hself.symm.trans hc'
    have hsound := sound_concat (x := .disconnect id) (h.conns id' conn' ((hother id' hne).symm.trans hc') nofun) nofun
    refine sound_congr hsound fun f t => ?_
    rw [Sys.emit, hwaits]
    exact and_iff_left hne

theorem needChallenge_free {m : MasterEnv K} (hneed : (needChallenge m uid).1 = false)
    (herr : (needChallenge m uid).2 = 0) : m.authMode = .off ∨ m.authMode = .optional ∧ m.certs uid = none := by
  cases hmode : m.authMode with
  | enabled => simp [needChallenge, hmode] at hneed
  | optional =>
    cases hcert : m.certs uid with
    | none => exact .inr ⟨rfl, rfl⟩
    | some cert =>
      simp only [needChallenge, hmode, hcert] at hneed herr
      split at herr
      · exact absurd herr (by decide)
      · rename_i hign
        simp [hign] at hneed
  | off => exact .inl rfl
  | bad =>
    simp only [needChallenge, hmode] at herr
    exact absurd herr (by decide)

/-- What the master answers. -/
theorem dispatchAuthRequest_spec (m : MasterEnv K) (rnd : Bool) (token uid : ℕ) :
    (dispatchAuthRequest m rnd token uid).1.token = token ∧ (dispatchAuthRequest m rnd token uid).1.authUid = uid ∧
      ((dispatchAuthRequest m rnd token uid).1.error = 0 →
        (dispatchAuthRequest m rnd token uid).1.Free uid m.authMode (m.certs uid) ∨
          (dispatchAuthRequest m rnd token uid).1.For uid) := by
  obtain ⟨need, error, hneed⟩ : ∃ need error, needChallenge m uid = (need, error) := ⟨_, _, rfl⟩
  have hfree : need = false → error = 0 →
      (⟨token, uid, error, [], []⟩ : Challenge).Free uid m.authMode (m.certs uid) := by
    intro hn he
    refine ⟨rfl, he, rfl, rfl, needChallenge_free ?_ ?_⟩
    · rw [hneed, hn]
    · rw [hneed, he]
  have hplain : ¬ (⟨token, uid, eperm, [], []⟩ : Challenge).error = 0 := by
    show ¬ eperm = 0
    decide
  rw [dispatchAuthRequest]
  simp only [hneed]
  generalize m.certs uid = certs at hfree ⊢
  cases need with
  | false =>
    cases certs with
    | none => exact ⟨rfl, rfl, fun he => .inl (hfree rfl he)⟩
    | some cert =>
      simp only [Bool.false_and, Bool.false_eq_true, if_false, true_or, or_true, if_true, true_and]
      exact fun he => .inl (hfree rfl he)
  | true =>
    cases certs with
    | none => exact ⟨rfl, rfl, fun he => absurd he hplain⟩
    | some cert =>
      simp only [if_true]
      generalize (if (true && !cert.keyid.isEmpty && (rnd || (true && m.randStatus)) && m.timeError ≠ 0) = true then
        m.timeError else if (true && !rnd && !m.randStatus) = true then eacces else error) = e
      split
      · exact ⟨rfl, rfl, fun he => absurd he hplain⟩
      · refine ⟨rfl, rfl, fun _ => .inr ⟨rfl, rfl, ?_⟩⟩
        rw [ne_eq, ← length_eq_zero_iff, m.cdata_size]
        decide

theorem inv_master {m : MasterEnv K} {msg : ToMaster} {rest : List ToMaster} (h : Inv sigOk p past none y)
    (hm : y.s2m = msg :: rest) : Inv sigOk p past none (dispatchS2m sigOk { y with s2m := rest } m msg) := by
  have hmem : ∀ m' ∈ rest, m' ∈ y.s2m := by
    intro m' hm'
    rw [hm]
    exact mem_cons_of_mem msg hm'
  have hback := h.sent msg (by rw [hm]; exact mem_cons_self)
  -- the master takes a message, answers it, and the log says so
  have hreply : ∀ (m' : ToSession) (rnd : Bool) (x : Event K), m'.token = msg.token → x.about = none →
      Admits y.log y.comm.nexttoken y.nextObj x → Fine sigOk p y.log x → Replied sigOk (y.log ++ [x]) m' →
      Inv sigOk p past none ({ y with s2m := rest, m2s := y.m2s ++ [m'], rndInitialized := rnd }.emit x) := by
    intro m' rnd x htok hab hadm hfine hrep
    have hemit := inv_emit h (.inl hab) hadm (fun id he => by rw [hab] at he; cases he) hfine
    refine { hemit with
      flight := fun f id t hw => ?_
      sent := fun m₁ hm₁ => hemit.sent m₁ (hmem m₁ hm₁)
      back := fun m₁ hm₁ => ?_ }
    · rcases h.flight f id t hw with ⟨m₁, hm₁, ht⟩ | ⟨m₁, hm₁, ht⟩
      · rw [hm] at hm₁
        rcases mem_cons.mp hm₁ with rfl | hm₁
        · exact .inr ⟨m', mem_append_right _ (mem_singleton.mpr rfl), htok.trans ht⟩
        · exact .inl ⟨m₁, hm₁, ht⟩
      · exact .inr ⟨m₁, mem_append_left _ hm₁, ht⟩
    · rcases mem_append.mp hm₁ with hm₁ | hm₁
      · exact hemit.back m₁ hm₁
      · rw [mem_singleton.mp hm₁]
        exact hrep
  cases msg with
  | request token uid =>
    obtain ⟨id, obj, hevents⟩ := hback
    obtain ⟨htok, huid, hres⟩ := dispatchAuthRequest_spec m y.rndInitialized token uid
    generalize hd : dispatchAuthRequest m y.rndInitialized token uid = r at htok huid hres
    rw [dispatchS2m]
    simp only [hd]
    refine hreply (.challenge r.1) r.2 _ htok rfl trivial trivial ⟨id, obj, m.authMode, m.certs uid, ?_, ?_⟩
    · rw [challenging, huid, htok]
      exact hevents.append (.refl [_])
    · rw [huid]
      exact hres
  | verify token uid data sig =>
    obtain ⟨id, obj, mode, cert, c, iv, hevents, hfor, rfl⟩ := hback
    rw [dispatchS2m]
    refine hreply (.result token uid _) y.rndInitialized _ rfl rfl trivial trivial
      ⟨id, obj, mode, cert, c, iv, sig, certGetByUid m uid, _, hevents.append (.refl [_]), hfor,
        fun herr => ?_⟩
    have hok : dispatchAuthVerify sigOk (certGetByUid m uid) (iv ++ c.challenge) sig = true := by
      by_contra hno
      rw [if_neg hno] at herr
      exact absurd herr (by decide)
    refine ⟨hok, ?_⟩
    rw [dispatchAuthVerify] at hok
    split at hok
    · cases hok
    · rename_i key hkey
      obtain ⟨c', hc', hkey⟩ := bind_eq_some_iff.mp hkey
      exact ⟨c', key, hc', hkey, hok⟩

theorem inv_step {op : Op K} (h : Inv sigOk p past none y) (hcalm : p → Calm y op)
    (hs : step env sigOk y op = some y') : Inv sigOk p past none y' := by
  cases op with
  | connect euid => exact inv_connect h hs
  | client id buf => exact inv_client h hs
  | master m =>
    rw [step] at hs
    split at hs
    · cases hs
    · rename_i msg rest hm
      cases hs
      exact inv_master h hm
  | deliver =>
    rw [step] at hs
    split at hs
    · cases hs
    · rename_i msg rest hm
      exact inv_deliver h hm hcalm hs
  | other op =>
    rw [step] at hs
    split at hs
    · rename_i hfor
      cases hs
      obtain ⟨hhomed, hle, hwaits⟩ := waits_foreign h.homed hfor
      refine ⟨book_mono h.book hle le_rfl le_rfl, hhomed, fun f id t hw => ?_, fun f id t hw => ?_, h.fresh, h.gone,
        h.sent, h.back, fun id conn hc hk => ?_⟩
      · exact h.opened f id t ((hwaits f id t).mp hw)
      · exact h.flight f id t ((hwaits f id t).mp hw)
      · exact sound_congr (h.conns id conn hc hk) fun f t => hwaits f id t
    · cases hs
  | disconnect id => exact inv_disconnect h hs

theorem inv_init : Inv sigOk p [] none (Sys.init : Sys K) where
  book := ⟨prefix_refl _, fun _ hx => absurd hx not_mem_nil, fun _ hx => absurd hx not_mem_nil,
    fun _ hx => absurd hx not_mem_nil, fun _ _ _ hx => absurd hx not_mem_nil,
    fun _ _ hx => absurd hx not_mem_nil, atEach_nil _⟩
  homed := homed_create
  opened := fun f id t hw => absurd hw (not_waits_create f id t)
  flight := fun f id t hw => absurd hw (not_waits_create f id t)
  fresh := fun _ _ => rfl
  gone := fun id hlt => absurd hlt (Nat.not_lt_zero id)
  sent := fun _ hm => absurd hm not_mem_nil
  back := fun _ hm => absurd hm not_mem_nil
  conns := fun _ _ hc => nomatch hc

end Anoubis.Daemon.Auth

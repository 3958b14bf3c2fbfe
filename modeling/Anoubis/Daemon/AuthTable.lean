import Anoubis.Daemon.Auth
import Anoubis.Proto.CommRuns

/-! The requests of the authentications in the table.

    Each of them belongs to one connection: its callback gets the server object of the channel it was made
    on. There is at most one request for a channel, so that `Waits` leaves no choice:

        Waits c f id t      the connection `id` waits for the answer `t`
                            (f = 0: AUTH_CHALLENGE, f = 1: AUTH_RESULT)                       -/

namespace Anoubis.Daemon.Auth

open Anoubis.Lib Anoubis.Proto List

/-- An authentication waits for the answer with this token. -/
def Waits (c : PolicyComm.Comm) (f id token : ℕ) : Prop :=
  f < 2 ∧ ∃ r ∈ c.req, r.token = token ∧ r.callback = .reply f id

/-- The table, and the channels of the authentications. -/
structure Homed (c : PolicyComm.Comm) : Prop where
  table : PolicyComm.Table c
  chan : ∀ r ∈ c.req, ∀ f id, f < 2 → r.callback = .reply f id → r.chan = id

theorem homed_create : Homed PolicyComm.Comm.create := ⟨PolicyComm.table_create, nofun⟩

theorem not_waits_create (f id token : ℕ) : ¬ Waits PolicyComm.Comm.create f id token := by
  rintro ⟨-, r, hr, -⟩
  cases hr

variable {c c' : PolicyComm.Comm} {f id token : ℕ} {cb : PolicyComm.Callback} {d : Bool}
variable {f' t chan flags error : ℕ} {r : PolicyComm.Request}

/-- One request for a channel. -/
theorem Homed.unique (h : Homed c) {t' : ℕ} (hw : Waits c f id t) (hw' : Waits c f' id t') : f = f' ∧ t = t' := by
  obtain ⟨hf, r, hr, rfl, hcb⟩ := hw
  obtain ⟨hf', r', hr', rfl, hcb'⟩ := hw'
  have hchan : r.chan = r'.chan := (h.chan r hr f id hf hcb).trans (h.chan r' hr' f' id hf' hcb').symm
  obtain rfl : r = r' := inj_on_of_nodup_map h.table.chans hr hr' hchan
  obtain ⟨rfl, -⟩ := PolicyComm.Callback.reply.inj (hcb.symm.trans hcb')
  exact ⟨rfl, rfl⟩

/-- One request for a token. -/
theorem Homed.owner (h : Homed c) {id' : ℕ} (hw : Waits c f id t) (hw' : Waits c f' id' t) : id = id' := by
  obtain ⟨-, r, hr, ht, hcb⟩ := hw
  obtain ⟨-, r', hr', ht', hcb'⟩ := hw'
  obtain rfl : r = r' := inj_on_of_nodup_map h.table.tokens hr hr' (ht.trans ht'.symm)
  exact (PolicyComm.Callback.reply.inj (hcb.symm.trans hcb')).2

/-- Which request an answer finds. -/
theorem waits_of_find (hf : c.req.find? (fun r => r.token == t) = some r) (hcb : r.callback = .reply f id)
    (hlt : f < 2) : Waits c f id t :=
  ⟨hlt, r, mem_of_find?_eq_some hf, by simpa using find?_some hf, hcb⟩

/-! ### The calls -/

/-- A request that is entered. -/
theorem addrequest_start (h : PolicyComm.addrequest c chan 3 cb d = .ok (token, c')) :
    token = c.nexttoken + 1 ∧ (∀ r ∈ c.req, r.chan ≠ chan) ∧ c' = PolicyComm.entered c chan true cb d := by
  rw [PolicyComm.addrequest] at h
  cases hf : c.req.find? (fun r => r.chan == chan) with
  | none =>
    rw [hf] at h
    cases h
    refine ⟨rfl, fun r hr => ?_, rfl⟩
    simpa using find?_eq_none.mp hf r hr
  | some r =>
    rw [hf] at h
    cases h

theorem addrequest_error {err : ℕ} (h : PolicyComm.addrequest c chan flags cb d = .error err) : err ≠ 0 := by
  rw [PolicyComm.addrequest] at h
  cases hf : c.req.find? (fun r => r.chan == chan) with
  | none =>
    rw [hf] at h
    cases h
  | some r =>
    rw [hf] at h
    simp only at h
    split at h
    · cases h
      decide
    split at h
    · cases h
      decide
    · cases h

/-- A connection starts to wait. -/
theorem waits_addrequest (hc : Homed c) (hf : f < 2)
    (h : PolicyComm.addrequest c id 3 (.reply f id) d = .ok (token, c')) :
    Homed c' ∧ token = c.nexttoken + 1 ∧ c'.nexttoken = token ∧ (∀ f' t, ¬ Waits c f' id t) ∧
      ∀ f' id' t, Waits c' f' id' t ↔ (f' = f ∧ id' = id ∧ t = token) ∨ Waits c f' id' t := by
  obtain ⟨htok, hnone, hc'⟩ := addrequest_start h
  refine ⟨⟨PolicyComm.table_addrequest hc.table h, ?_⟩, htok, ?_, ?_, ?_⟩
  · intro r hr f' id' hf' hcb
    rw [hc'] at hr
    rcases mem_cons.mp hr with rfl | hr
    · exact (PolicyComm.Callback.reply.inj hcb).2
    · exact hc.chan r hr f' id' hf' hcb
  · rw [hc', htok, PolicyComm.entered]
  · rintro f' t ⟨hf', r, hr, -, hcb⟩
    exact hnone r hr (hc.chan r hr f' id hf' hcb)
  · intro f' id' t
    rw [hc', htok]
    constructor
    · rintro ⟨hf', r, hr, rfl, hcb⟩
      rcases mem_cons.mp hr with rfl | hr
      · obtain ⟨rfl, rfl⟩ := PolicyComm.Callback.reply.inj hcb
        exact .inl ⟨rfl, rfl, rfl⟩
      · exact .inr ⟨hf', r, hr, rfl, hcb⟩
    · rintro (⟨rfl, rfl, rfl⟩ | ⟨hf', r, hr, ht, hcb⟩)
      · exact ⟨hf, _, mem_cons_self, rfl, rfl⟩
      · exact ⟨hf', r, mem_cons_of_mem _ hr, ht, hcb⟩

/-- An answer takes its request out of the table. -/
theorem waits_answer (hc : Homed c) (h : PolicyComm.answer c token error [] true = .ok c') :
    Homed c' ∧ c'.nexttoken = c.nexttoken ∧ ∀ f id t, Waits c' f id t ↔ Waits c f id t ∧ t ≠ token := by
  have htable := PolicyComm.table_answer hc.table h
  rw [PolicyComm.answer] at h
  cases hf : c.req.find? (fun r => r.token == token) with
  | none =>
    rw [hf] at h
    cases h
  | some r =>
    rw [hf] at h
    simp only [hc.table.unfinished r (mem_of_find?_eq_some hf), Bool.false_eq_true, if_false, if_true] at h
    cases h
    have hmem : ∀ r', r' ∈ c.req.eraseP (fun r => r.token == token) ↔ r' ∈ c.req ∧ r'.token ≠ token :=
      fun r' => mem_eraseP_key hc.table.tokens
    refine ⟨⟨htable, fun r' hr' => hc.chan r' ((hmem r').mp hr').1⟩, rfl, fun f id t => ?_⟩
    constructor
    · rintro ⟨hlt, r', hr', rfl, hcb⟩
      obtain ⟨hr', hne⟩ := (hmem r').mp hr'
      exact ⟨⟨hlt, r', hr', rfl, hcb⟩, hne⟩
    · rintro ⟨⟨hlt, r', hr', rfl, hcb⟩, hne⟩
      exact ⟨hlt, r', (hmem r').mpr ⟨hr', hne⟩, rfl, hcb⟩

/-- Every open request can be answered. -/
theorem answer_found (hc : Homed c) (error : ℕ) (hf : c.req.find? (fun r => r.token == token) = some r) :
    ∃ c', PolicyComm.answer c token error [] true = .ok c' := by
  rw [PolicyComm.answer, hf]
  simp only [hc.table.unfinished r (mem_of_find?_eq_some hf), Bool.false_eq_true, if_false]
  exact ⟨_, rfl⟩

theorem mem_destroy (hc : PolicyComm.Table c) (chan : ℕ) (r : PolicyComm.Request) :
    r ∈ (PolicyComm.destroy c chan).req ↔ r ∈ c.req ∧ r.chan ≠ chan := by
  rw [PolicyComm.destroy]
  cases hf : c.req.find? (fun r => r.chan == chan) with
  | none =>
    refine ⟨fun hr => ⟨hr, ?_⟩, And.left⟩
    simpa using find?_eq_none.mp hf r hr
  | some r' =>
    simp only
    split <;> exact mem_eraseP_key hc.chans

theorem nexttoken_destroy (c : PolicyComm.Comm) (chan : ℕ) : (PolicyComm.destroy c chan).nexttoken = c.nexttoken := by
  rw [PolicyComm.destroy]
  split
  · rfl
  · simp only
    split <;> rfl

/-- A closed channel does not wait. -/
theorem waits_destroy (hc : Homed c) (id : ℕ) : Homed (PolicyComm.destroy c id) ∧
      ∀ f id' t, Waits (PolicyComm.destroy c id) f id' t ↔ Waits c f id' t ∧ id' ≠ id := by
  refine ⟨⟨PolicyComm.table_destroy hc.table id, fun r hr => ?_⟩, fun f id' t => ?_⟩
  · exact hc.chan r ((mem_destroy hc.table id r).mp hr).1
  constructor
  · rintro ⟨hf, r, hr, ht, hcb⟩
    obtain ⟨hr, hne⟩ := (mem_destroy hc.table id r).mp hr
    refine ⟨⟨hf, r, hr, ht, hcb⟩, ?_⟩
    rwa [← hc.chan r hr f id' hf hcb]
  · rintro ⟨⟨hf, r, hr, ht, hcb⟩, hne⟩
    refine ⟨hf, r, (mem_destroy hc.table id r).mpr ⟨hr, ?_⟩, ht, hcb⟩
    rwa [hc.chan r hr f id' hf hcb]

/-! ### The rest of the daemon -/

theorem ne_reply_of_not_isAuth (h : isAuth cb = false) (hf : f < 2) : cb ≠ .reply f id := by
  rintro rfl
  simp [isAuth, hf] at h

/-- The table behind a request of another kind. -/
theorem waits_other_entered (hc : Homed c) (hcb : isAuth cb = false)
    (h : PolicyComm.addrequest c chan flags cb d = .ok (token, c')) :
    Homed c' ∧ c.nexttoken ≤ c'.nexttoken ∧ ∀ f id t, Waits c' f id t ↔ Waits c f id t := by
  have htable := PolicyComm.table_addrequest hc.table h
  rw [PolicyComm.addrequest] at h
  cases hf : c.req.find? (fun r => r.chan == chan) with
  | none =>
    rw [hf] at h
    cases h
    refine ⟨⟨htable, fun r hr f id hlt he => ?_⟩, Nat.le_succ _, fun f id t => ?_⟩
    · rcases mem_cons.mp hr with rfl | hr
      · exact absurd he (ne_reply_of_not_isAuth hcb hlt)
      · exact hc.chan r hr f id hlt he
    constructor
    · rintro ⟨hlt, r, hr, ht, he⟩
      rcases mem_cons.mp hr with rfl | hr
      · exact absurd he (ne_reply_of_not_isAuth hcb hlt)
      · exact ⟨hlt, r, hr, ht, he⟩
    · rintro ⟨hlt, r, hr, ht, he⟩
      exact ⟨hlt, r, mem_cons_of_mem _ hr, ht, he⟩
  | some r =>
    rw [hf] at h
    simp only at h
    split at h
    · cases h
    split at h
    · cases h
    · cases h
      exact ⟨hc, le_rfl, fun _ _ _ => .rfl⟩

/-- The table behind an answer to a request of another kind. -/
theorem waits_other_answer (hc : Homed c) {data : List UInt8} {fin : Bool}
    (hno : ∀ r ∈ c.req, r.token = token → isAuth r.callback = false)
    (h : PolicyComm.answer c token error data fin = .ok c') :
    Homed c' ∧ c.nexttoken ≤ c'.nexttoken ∧ ∀ f id t, Waits c' f id t ↔ Waits c f id t := by
  have htable := PolicyComm.table_answer hc.table h
  rw [PolicyComm.answer] at h
  cases hf : c.req.find? (fun r => r.token == token) with
  | none =>
    rw [hf] at h
    cases h
  | some r₀ =>
    rw [hf] at h
    simp only [hc.table.unfinished r₀ (mem_of_find?_eq_some hf), Bool.false_eq_true, if_false] at h
    cases h
    -- the requests of authentications are the same as before
    have hsame : ∀ r f id, f < 2 → r.callback = .reply f id →
        ((∃ r' ∈ (if fin then c.req.eraseP (fun r => r.token == token)
          else c.req.map (fun r => if r.token == token then { r with replyDatastart := true } else r)),
          r' = r) ↔ r ∈ c.req) := by
      intro r f id hlt hcb
      have hauth : isAuth r.callback = true := by simp [hcb, isAuth, hlt]
      cases fin with
      | true =>
        simp only [if_true, exists_eq_right, mem_eraseP_key hc.table.tokens]
        refine ⟨And.left, fun hr => ⟨hr, fun ht => ?_⟩⟩
        rw [hno r hr ht] at hauth
        cases hauth
      | false =>
        simp only [Bool.false_eq_true, if_false, exists_eq_right, mem_map]
        constructor
        · rintro ⟨r', hr', rfl⟩
          split at hauth
          next ht =>
            rw [hno r' hr' (by simpa using ht)] at hauth
            cases hauth
          next ht =>
            rwa [if_neg ht]
        · intro hr
          refine ⟨r, hr, if_neg fun ht => ?_⟩
          rw [hno r hr (by simpa using ht)] at hauth
          cases hauth
    refine ⟨⟨htable, fun r hr f id hlt hcb => ?_⟩, le_rfl, fun f id t => ?_⟩
    · exact hc.chan r ((hsame r f id hlt hcb).mp ⟨r, hr, rfl⟩) f id hlt hcb
    constructor
    · rintro ⟨hlt, r, hr, ht, hcb⟩
      exact ⟨hlt, r, (hsame r f id hlt hcb).mp ⟨r, hr, rfl⟩, ht, hcb⟩
    · rintro ⟨hlt, r, hr, ht, hcb⟩
      obtain ⟨r', hr', rfl⟩ := (hsame r f id hlt hcb).mpr hr
      exact ⟨hlt, r', hr', ht, hcb⟩

/-- Nobody else makes an authentication wait, or keeps it from waiting. -/
theorem waits_foreign (hc : Homed c) {op : PolicyComm.Op} (h : foreign c op = true) :
    Homed (PolicyComm.step c op) ∧ c.nexttoken ≤ (PolicyComm.step c op).nexttoken ∧
      ∀ f id t, Waits (PolicyComm.step c op) f id t ↔ Waits c f id t := by
  have hsame : Homed c ∧ c.nexttoken ≤ c.nexttoken ∧ ∀ f id t, Waits c f id t ↔ Waits c f id t :=
    ⟨hc, le_rfl, fun _ _ _ => .rfl⟩
  cases op with
  | addrequest chan flags cb d =>
    rw [PolicyComm.step]
    cases ha : PolicyComm.addrequest c chan flags cb d with
    | error e => exact hsame
    | ok r => exact waits_other_entered hc (by simpa [foreign] using h) ha
  | process m uid chan =>
    have htable := PolicyComm.table_step c (.process m uid chan) hc.table
    rw [PolicyComm.step] at htable ⊢
    cases hp : PolicyComm.processBegin c m uid chan with
    | error e => exact hsame
    | ok c' =>
      rw [hp] at htable
      obtain ⟨token, c₁, ha, rfl⟩ := PolicyComm.processBegin_eq_ok hp
      obtain ⟨hh, hle, hw⟩ := waits_other_entered hc rfl ha
      exact ⟨⟨htable, hh.chan⟩, hle, hw⟩
  | answer token error data fin =>
    rw [PolicyComm.step]
    cases ha : PolicyComm.answer c token error data fin with
    | error e => exact hsame
    | ok c' =>
      refine waits_other_answer hc (fun r hr ht => ?_) ha
      by_contra hauth
      simp only [foreign, Bool.not_eq_true', any_eq_false, Bool.and_eq_true, beq_iff_eq, not_and] at h
      exact h r hr ht (by simpa using hauth)
  | destroy chan => cases h

end Anoubis.Daemon.Auth

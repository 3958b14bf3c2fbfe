import Anoubis.Client.Ops

/-! What each kind of transaction does with a message.

    A connect that fails closes the connection before it leaves the list itself:

        id …  --close starts-->  id₂ id …  --messages-->  id …  --end of id-->  …

    Meanwhile the list without `id` is the sound one, and every message goes to `id₂`, which is the first. -/

namespace Anoubis.Client

open Option

open Anoubis.Lib List
open Anoubis.Connection (Bytes u16 u32 tokenOf noToken Protos cClosereq cCloseack)
open Anoubis.MsgVerify (verifyLength)

theorem Open.dequeues {t : Transaction} (h : Open t) (hk : t.kind.dequeues = false) : t.dequeue = true := by
  refine h.dequeue.resolve_right fun hd => ?_
  rw [hk] at hd
  cases hd

/-! ### The policy protocol -/

section Policy

variable {env : Env} {pending : List Bytes} {c c₂ : AnoubisClient} {id : ℕ} {t : Transaction} {m : Bytes}

theorem Stepped.same (hget : (core c).getT id = some t) (h : Open t) (hc : core c₂ = core c) :
    Stepped (core c) id t (core c₂) := by
  have hw : Stepped (core c) id t ((core c).waits id t) := .waits t h rfl rfl
  rw [hc]
  rwa [Core.waits_self hget] at hw

variable {clients : List Bool}

theorem Stepped.ends {k : Core} (error : ℤ) {ops : List ℕ}
    (left : ops = k.ops.erase id ∨ ops = k.ops ∧ t.dequeue = true) (same : t.isPolicy = true ∨ clients = k.clients) :
    Stepped k id t { k.leave id t (some (t.finished error)) clients with ops := ops } := by
  refine .done (t.finished error) ?_ ?_ ?_ ops left clients same <;> rfl

theorem policyDone_stepped (ret : ℤ) (hc : core c₂ = { core c with clients := clients }) (hp : t.isPolicy = true) :
    Stepped (core c) id t (core (policyDone c₂ id t ret)) := by
  have h : core (policyDone c₂ id t ret) = ⟨(core c₂).ops.erase id, (core c₂).ts.set id (some (t.finished (-ret))),
      false, (core c₂).clients, (core c₂).finish, (core c₂).handed⟩ := rfl
  have hd : Stepped (core c) id t { (core c).leave id t (some (t.finished (-ret))) clients with
      ops := (core c).ops.erase id } := .ends (-ret) (.inl rfl) (.inl hp)
  rw [h, hc]
  rwa [Core.leave, if_pos hp] at hd

theorem streamSteps_stepped (hget : (core c).getT id = some t) (h : Open t) (hp : t.isPolicy = true) (type : ℕ) :
    Stepped (core c) id t (core (streamSteps env type c id t m)) := by
  have hv : core (clientVerify env c m).2 = { core c with clients := (core c).clients } := core_clientVerify
  rw [streamSteps]
  split
  · exact policyDone_stepped _ hv hp
  split
  · exact policyDone_stepped _ hv hp
  split
  · exact policyDone_stepped _ hv hp
  split
  · exact policyDone_stepped _ hv hp
  split
  · exact .same hget h hv
  · exact policyDone_stepped _ hv hp

theorem clientListSteps_stepped (hget : (core c).getT id = some t) (h : Open t) (hp : t.isPolicy = true) :
    Stepped (core c) id t (core (clientListSteps env c id t m)) := by
  have hv : core (clientVerify env c m).2 = { core c with clients := (core c).clients } := core_clientVerify
  rw [clientListSteps]
  split
  · exact policyDone_stepped _ hv hp
  split
  · exact policyDone_stepped _ hv hp
  split
  · exact policyDone_stepped _ hv hp
  split
  · exact .same hget h hv
  · exact policyDone_stepped _ hv hp

theorem clientCsmultiProcess_stepped {r : ℕ} (hp : t.isPolicy = true) (hclient : (core c).clients[r]? = some true) :
    clientCsmultiProcess r c id t m = .error .buffer ∨
      ∃ c₂, clientCsmultiProcess r c id t m = .ok c₂ ∧ Stepped (core c) id t (core c₂) := by
  obtain ⟨req, hreq, hopen⟩ : ∃ req, c.requests[r]? = some req ∧ req.client = true := by
    have h : (c.requests.map Request.client)[r]? = some true := hclient
    rw [getElem?_map] at h
    exact map_eq_some_iff.mp h
  rw [clientCsmultiProcess, hreq]
  dsimp only
  rw [if_neg (by simp [hopen])]
  cases clientCsmultiSteps req m with
  | none => exact .inl rfl
  | some x => exact .inr ⟨_, rfl, policyDone_stepped _ rfl hp⟩

/-- An acknowledgement is for the policy protocol where it has no token. -/
theorem clientAckSteps_stepped (h : Open t) (hk : t.kind = .ack) (htoken : tokenOf m = t.token) :
    Stepped (core c) id t (core (clientAckSteps env c id t m)) := by
  have hv : core (clientVerify env c m).2 = core c := core_clientVerify
  have hp : t.isPolicy = decide (t.token = noToken) := by rw [Transaction.isPolicy, hk]
  have hdequeue : t.dequeue = true := h.dequeues (by rw [hk]; rfl)
  rw [clientAckSteps]
  dsimp only
  generalize (if (clientVerify env c m).1 = false then (-erange : ℤ)
    else if verifyLength m 20 = false ∨ u32 m 0 ≠ pReply then -eproto else -u32 m 16) = ret
  have hd : Stepped (core c) id t { (core c).leave id t (some (t.finished (-ret))) (core c).clients with
      ops := (core c).ops } := .ends (-ret) (.inr ⟨rfl, hdequeue⟩) (.inr rfl)
  have hcore : core ((if tokenOf m = noToken then { (clientVerify env c m).2 with policyPending := false }
      else (clientVerify env c m).2).setT id (t.finished (-ret))) =
        { (core c).leave id t (some (t.finished (-ret))) (core c).clients with ops := (core c).ops } := by
    rw [core_setT, Core.leave, hp, ← htoken]
    by_cases hno : tokenOf m = noToken
    · rw [if_pos hno, if_pos (decide_eq_true hno), ← hv]
      rfl
    · rw [if_neg hno, if_neg (by simpa using hno), hv]
      rfl
  rw [hcore]
  exact hd

end Policy

/-! ### Closing -/

section Closing

variable {env : Env} {pending : List Bytes} {c c₂ : AnoubisClient} {id id₂ : ℕ} {t : Transaction} {m : Bytes}

theorem core_finished {k : Core} (hp : t.isPolicy = false) (error : ℤ) (hc : core c₂ = k) :
    core (c₂.setT id (t.finished error)) =
      { k.leave id t (some (t.finished error)) k.clients with ops := k.ops } := by
  rw [core_setT, hc, Core.leave, hp]
  rfl

variable (c₂) in
theorem Stepped.finished (h : Open t) (hk : t.kind.dequeues = false) (hp : t.isPolicy = false) (error : ℤ)
    (hc : core c₂ = core c) : Stepped (core c) id t (core (c₂.setT id (t.finished error))) := by
  rw [core_finished hp error hc]
  exact .ends error (.inr ⟨rfl, h.dequeues hk⟩) (.inr rfl)

theorem clientCloseSteps_stepped (hget : (core c).getT id = some t) (h : Open t) (hk : t.kind = .close) :
    Stepped (core c) id t (core (clientCloseSteps env c id t m)) := by
  have hv : core (closeStage env c m).2 = core c := core_closeStage
  have hp : t.isPolicy = false := by rw [Transaction.isPolicy, hk]
  have hq : t.kind.dequeues = false := by rw [hk]; rfl
  rw [clientCloseSteps]
  dsimp only
  split
  · exact .finished { (closeStage env c m).2 with chan := false, state := .error } h hq hp _ hv
  · exact .finished { (closeStage env c m).2 with chan := false, state := .closed } h hq hp _ hv
  · exact .same hget h hv

variable (env pending m) in
/-- All kinds but connect. -/
theorem processSteps_stepped (hok : OpsOk (core c)) (hid : id ∈ c.ops) (hget : (core c).getT id = some t)
    (hack : t.kind = .ack → tokenOf m = t.token) (hconnect : ∀ proto, t.kind ≠ .connect proto) :
    processSteps env pending c id t m = .error .buffer ∨
      ∃ c₂, processSteps env pending c id t m = .ok c₂ ∧ Stepped (core c) id t (core c₂) := by
  obtain ⟨u, hu, h⟩ := hok.isOpen id hid
  cases hget.symm.trans hu
  rw [processSteps, h.process]
  have hpolicy : ∀ k, t.kind = k → (∀ proto, k ≠ .connect proto) → k ≠ .close → k ≠ .ack → t.isPolicy = true := by
    rintro k hk h₁ h₂ h₃
    rw [Transaction.isPolicy, hk]
    cases k with
    | connect proto => exact absurd rfl (h₁ proto)
    | close => exact absurd rfl h₂
    | ack => exact absurd rfl h₃
    | _ => rfl
  cases hk : t.kind with
  | connect proto => exact absurd hk (hconnect proto)
  | close => exact .inr ⟨_, rfl, clientCloseSteps_stepped hget h hk⟩
  | ack => exact .inr ⟨_, rfl, clientAckSteps_stepped h hk (hack hk)⟩
  | policy => exact .inr ⟨_, rfl, streamSteps_stepped hget h (hpolicy _ hk (by simp) (by simp) (by simp)) _⟩
  | listAck => exact .inr ⟨_, rfl, streamSteps_stepped hget h (hpolicy _ hk (by simp) (by simp) (by simp)) _⟩
  | csmulti r =>
    exact clientCsmultiProcess_stepped (hpolicy _ hk (by simp) (by simp) (by simp)) (hok.requests id hid t r hget hk)
  | version =>
    refine .inr ⟨_, rfl, ?_⟩
    exact policyDone_stepped _ (show _ = { core c with clients := (core c).clients } from core_clientVerify)
      (hpolicy _ hk (by simp) (by simp) (by simp))
  | list => exact .inr ⟨_, rfl, clientListSteps_stepped hget h (hpolicy _ hk (by simp) (by simp) (by simp))⟩

end Closing

/-! ### A connect that has failed -/

/-- The list without a transaction. -/
def Core.without (c : Core) (id : ℕ) : Core := { c with ops := c.ops.erase id }

/-- The connect `id` has failed, and its end is not handled yet. -/
structure Failed (id : ℕ) (c : Core) : Prop where
  rest : OpsOk (c.without id)
  nodup : c.ops.Nodup
  mem : id ∈ c.ops
  new : id ∉ c.finish
  result : ∃ t proto, c.getT id = some t ∧ t.done = true ∧ t.dequeue = true ∧ t.kind = .connect proto

/-- The close message ends the transaction of the close. -/
def Ends (env : Env) (c : AnoubisClient) (m : Bytes) : Prop :=
  u32 m 0 = cCloseack ∨ u32 m 0 = cClosereq ∧
    (verifyLength m 4 = false ∨ c.gotcloseack = true ∨ c.sentcloseack = false ∧ env.sendmsg c.tries = false)

/-- Behind messages that pass the checks there is one that ends the close. -/
def CloseEnds (env : Env) (c : AnoubisClient) : List Bytes → Prop
  | [] => False
  | m :: ms => env.verify m = true ∧ env.crc m = true ∧ (Ends env c m ∨ CloseEnds env c ms)

/-- The connect `id` has failed, and the transaction `id₂` closes the connection. -/
structure Closing (id id₂ : ℕ) (c : AnoubisClient) : Prop where
  failed : Failed id (core c)
  first : ∃ ids, c.ops = id₂ :: ids
  ne : id₂ ≠ id
  close : ∃ t, (core c).getT id₂ = some t ∧ Open t ∧ t.kind = .close ∧ t.opcodes = some [cClosereq, cCloseack, 0]
  request : c.sentclosereq = true
  chan : c.chan = true

section Failures

variable {k : Core} {opcode : ℕ}
variable {env : Env} {c c₂ : AnoubisClient} {id id₂ : ℕ} {t : Transaction} {m : Bytes}

theorem Failed.finished (h : OpsOk k) (hid : id ∈ k.ops) (hget : k.getT id = some t) {proto : Protos}
    (hk : t.kind = .connect proto) (error : ℤ) : Failed id (k.waits id (t.finished error)) := by
  have hp : t.isPolicy = false := by rw [Transaction.isPolicy, hk]
  obtain ⟨u, hu, hopen⟩ := h.isOpen id hid
  cases hget.symm.trans hu
  refine ⟨?_, h.nodup, hid, fun hf => (h.finished id hf).2 hid, t.finished error, proto, ?_, rfl, ?_, hk⟩
  · have hl : OpsOk (k.leave id t (some (t.finished error)) k.clients) := h.leave hid hget _ (.inr rfl)
    rwa [Core.leave, hp] at hl
  · rw [Core.getT_set (c := k) rfl (Core.lt_of_getT hget), if_pos rfl]
  · exact hopen.dequeues (by rw [hk]; rfl)

variable (c id m) in
theorem core_transactionDone (hk : ∀ r, t.kind ≠ .csmulti r) (hdequeue : t.dequeue = true) :
    ∃ u, core (transactionDone c id t m) = (((core c).without id).waits id u).ended id := by
  have hother : ∀ u : Transaction, u.kind = t.kind → finishRequest c id u m = c.setT id u := by
    intro u hu
    rw [finishRequest]
    split
    · rename_i r hr
      exact absurd (hu.symm.trans hr) (hk r)
    · rfl
  rw [transactionDone, hother { t with msg := if t.wantmessage then [m] else t.msg } rfl]
  rw [if_pos hdequeue]
  exact ⟨_, rfl⟩

/-- The end of the connect is handled. -/
theorem Failed.ends (h : Failed id (core c)) (m : Bytes) :
    ∃ c₃, transactionEnd c id m = .ok c₃ ∧ OpsOk (core c₃) := by
  obtain ⟨t, proto, hget, hdone, hdequeue, hk⟩ := h.result
  have hget' : c.getT id = some t := hget
  rw [transactionEnd, hget']
  refine ⟨_, if_neg (by simp [hdone]), ?_⟩
  obtain ⟨u, hcore⟩ := core_transactionDone c id m
    (t := { t with msg := if t.wantall then t.msg ++ [m] else t.msg }) (by simp [hk]) hdequeue
  have hout : id ∉ ((core c).without id).ops := List.Nodup.not_mem_erase h.nodup
  rw [hcore]
  refine (h.rest.elsewhere hout (some u)).ended ?_ hout h.new
  show id < (c.ts.set id _).length
  rw [length_set]
  exact Core.lt_of_getT hget

theorem Failed.free (h : Failed id k) (hout : id₂ ∉ k.ops) : Failed id { k with ts := k.ts.set id₂ none } := by
  have hne : id₂ ≠ id := fun heq => hout (heq ▸ h.mem)
  obtain ⟨t, proto, hget, hrest⟩ := h.result
  refine ⟨h.rest.elsewhere (fun hm => hout (mem_of_mem_erase hm)) none, h.nodup, h.mem, h.new, t, proto, ?_, hrest⟩
  rw [Core.getT, getElem?_set, if_neg hne]
  exact hget

theorem clientVerify_of (henv : env.crc m = true) (hlen : verifyLength m 4 = true) :
    clientVerify env c m = (true, c.noteClose m) := if_pos ⟨hlen, henv⟩

theorem clientVerify_not (hlen : ¬ verifyLength m 4 = true) : clientVerify env c m = (false, c) :=
  if_neg fun h => hlen h.1

theorem sendGeneral_of (hchan : c.chan = true) (hsend : env.sendmsg c.tries = true) : sendGeneral env c opcode =
      (true, { c with tries := c.tries + 1, sent := c.sent ++ [.bytes (be32 opcode)] }) := if_pos ⟨hchan, hsend⟩

theorem sendGeneral_not (hsend : ¬ env.sendmsg c.tries = true) : (sendGeneral env c opcode).1 = false := by
  rw [sendGeneral, clientSend, if_neg fun hs => hsend hs.2]

theorem noteClose_fields : (c.noteClose m).chan = c.chan ∧ (c.noteClose m).tries = c.tries ∧
    (c.noteClose m).sentcloseack = c.sentcloseack ∧ (c.noteClose m).sentclosereq = c.sentclosereq := by
  rw [AnoubisClient.noteClose]
  split
  · exact ⟨rfl, rfl, rfl, rfl⟩
  · split <;> exact ⟨rfl, rfl, rfl, rfl⟩

theorem noteClose_closereq (hop : u32 m 0 = cClosereq) :
    (c.noteClose m).gotclosereq = true ∧ (c.noteClose m).gotcloseack = c.gotcloseack := by
  rw [AnoubisClient.noteClose, if_pos hop]
  exact ⟨rfl, rfl⟩

theorem noteClose_closeack (hop : u32 m 0 = cCloseack) : (c.noteClose m).gotcloseack = true := by
  rw [AnoubisClient.noteClose, if_neg (by rw [hop]; decide), if_pos hop]

/-- The close goes on: this was a CLOSEREQ, and the answer went out. -/
theorem closeStage_open (hop : u32 m 0 = cClosereq ∨ u32 m 0 = cCloseack) (hreq : c.sentclosereq = true)
    (hchan : c.chan = true) (hcrc : env.crc m = true) (h : (closeStage env c m).1 = .ok false) :
    u32 m 0 = cClosereq ∧ ¬ Ends env c m ∧ (closeStage env c m).2.gotcloseack = false ∧
      (closeStage env c m).2.sentcloseack = true ∧ (closeStage env c m).2.chan = true ∧
      (closeStage env c m).2.sentclosereq = true := by
  obtain ⟨hc, ht, hs, hr⟩ := noteClose_fields (c := c) (m := m)
  rw [closeStage] at h ⊢
  by_cases hlen : verifyLength m 4 = true
  · rw [clientVerify_of hcrc hlen] at h ⊢
    dsimp only at h ⊢
    rw [if_neg (by simp), if_neg (by tauto), if_neg (by simp [hr, hreq])] at h ⊢
    rcases hop with hop | hop
    · obtain ⟨hgotreq, hgotack⟩ := noteClose_closereq (c := c) hop
      have hends : c.gotcloseack = false → (c.sentcloseack = true ∨ env.sendmsg c.tries = true) → ¬ Ends env c m := by
        rintro h₁ h₂ (h₃ | ⟨-, h₃ | h₃ | ⟨h₃, h₄⟩⟩)
        · exact absurd (hop.symm.trans h₃) (by decide)
        · rw [hlen] at h₃
          cases h₃
        · rw [h₁] at h₃
          cases h₃
        · rw [h₃, h₄] at h₂
          simp at h₂
      generalize c.noteClose m = n at h ⊢ hc ht hs hr hgotreq hgotack
      rw [if_neg (by simp [hgotreq])] at h ⊢
      by_cases hsent : n.sentcloseack = true
      · rw [if_neg (by simp [hsent])] at h ⊢
        have hgot : n.gotcloseack = false := by simpa [hsent] using h
        exact ⟨hop, hends (hgotack ▸ hgot) (.inl (hs ▸ hsent)), hgot, hsent, hc.trans hchan, hr.trans hreq⟩
      · rw [if_pos ⟨hgotreq, by simpa using hsent⟩] at h ⊢
        by_cases hsend : env.sendmsg n.tries = true
        · rw [sendGeneral_of (hc.trans hchan) hsend] at h ⊢
          dsimp only at h ⊢
          rw [if_neg (by simp)] at h ⊢
          have hgot : n.gotcloseack = false := Except.ok.inj h
          exact ⟨hop, hends (hgotack ▸ hgot) (.inr (ht ▸ hsend)), hgot, rfl, hc.trans hchan, hr.trans hreq⟩
        · rw [if_pos (sendGeneral_not hsend)] at h
          cases h
    · have hgotack := noteClose_closeack (c := c) hop
      generalize c.noteClose m = n at h hc hgotack
      by_cases hgot : n.gotclosereq = true
      · rw [if_neg (by simp [hgot])] at h
        by_cases hsent : n.sentcloseack = true
        · rw [if_neg (by simp [hsent]), hgotack, hsent] at h
          cases h
        · rw [if_pos ⟨hgot, by simpa using hsent⟩] at h
          by_cases hsend : env.sendmsg n.tries = true
          · rw [sendGeneral_of (hc.trans hchan) hsend] at h
            dsimp only at h
            rw [if_neg (by simp), hgotack] at h
            cases h
          · rw [if_pos (sendGeneral_not hsend)] at h
            cases h
      · rw [if_pos ⟨hgotack, by simpa using hgot⟩] at h
        cases h
  · rw [clientVerify_not hlen] at h
    dsimp only at h
    rw [if_pos rfl] at h
    cases h

/-- The close has gone on. -/
theorem CloseEnds.goesOn (hop : u32 m 0 = cClosereq) (hnot : ¬ Ends env c m) {ms : List Bytes} (h : CloseEnds env c ms) : CloseEnds env c₂ ms := by
  induction ms with
  | nil => exact h
  | cons m' ms ih =>
    refine ⟨h.1, h.2.1, h.2.2.imp ?_ ih⟩
    rintro (h₁ | ⟨h₁, h₂ | h₂ | h₂⟩)
    · exact .inl h₁
    · exact .inr ⟨h₁, .inl h₂⟩
    · exact absurd (.inr ⟨hop, .inr (.inl h₂)⟩) hnot
    · exact absurd (.inr ⟨hop, .inr (.inr h₂)⟩) hnot

end Failures

/-! ### The loop of the close -/

section Loop

variable {env : Env} {c c₂ : AnoubisClient} {id id₂ : ℕ} {t : Transaction} {m : Bytes}
variable {k : Core} {hd : Handed}

theorem Failed.congr {k' : Core} (h : Failed id k) (heq : k' = k) : Failed id k' := heq ▸ h

theorem Failed.hand (h : Failed id k) (hh : HandedOk hd) : Failed id (k.hand hd) :=
  ⟨h.rest.hand hh, h.nodup, h.mem, h.new, h.result⟩

theorem Failed.waits (h : Failed id k) (hne : id₂ ≠ id) (hget : k.getT id₂ = some t) {t' : Transaction}
    (ht : Open t') (hkind : t'.kind = t.kind) (htoken : t'.token = t.token) : Failed id (k.waits id₂ t') := by
  obtain ⟨u, proto, hu, hrest⟩ := h.result
  refine ⟨h.rest.waits hget ht hkind htoken, h.nodup, h.mem, h.new, u, proto, ?_, hrest⟩
  rw [Core.getT_set (c := k) rfl (Core.lt_of_getT hget), if_neg fun heq => hne heq.symm]
  exact hu

theorem Failed.leave (h : Failed id k) (hne : id₂ ≠ id) (hid : id₂ ∈ k.ops) (hget : k.getT id₂ = some t)
    (t' : Transaction) : Failed id ((k.leave id₂ t (some t') k.clients).ended id₂) ∧
      id₂ ∉ ((k.leave id₂ t (some t') k.clients).ended id₂).ops := by
  obtain ⟨u, proto, hu, hrest⟩ := h.result
  have hlt := Core.lt_of_getT hget
  have hmem : id₂ ∈ (k.without id).ops := (mem_erase_of_ne hne).mpr hid
  have hout : id₂ ∉ k.ops.erase id₂ := List.Nodup.not_mem_erase h.nodup
  refine ⟨⟨?_, h.nodup.erase id₂, (mem_erase_of_ne hne.symm).mpr h.mem, ?_, u, proto, ?_, hrest⟩, hout⟩
  · have hl : OpsOk (((k.without id).leave id₂ t (some t') (k.without id).clients).ended id₂) :=
      (h.rest.leave hmem hget (some t') (.inr rfl)).ended ?_ ?_ ?_
    · have hcomm : ((k.leave id₂ t (some t') k.clients).ended id₂).without id =
          ((k.without id).leave id₂ t (some t') (k.without id).clients).ended id₂ := by
        exact congrArg (fun ops => ({ (k.leave id₂ t (some t') k.clients).ended id₂ with ops := ops } : Core))
          (erase_comm id₂ id)
      rw [hcomm]
      exact hl
    · show id₂ < (k.ts.set id₂ _).length
      rw [length_set]
      exact hlt
    · exact List.Nodup.not_mem_erase (h.nodup.erase id)
    · exact fun hf => (h.rest.finished id₂ hf).2 hmem
  · intro hf
    rcases mem_append.mp hf with hf | hf
    · exact h.new hf
    · exact hne (mem_singleton.mp hf).symm
  · exact (Core.getT_set (c := k) rfl hlt id).trans (if_neg fun heq => hne heq.symm) |>.trans hu

theorem core_handed (hd : Handed) : core { c with handed := c.handed ++ [hd] } = (core c).hand hd := rfl

variable (c₂ m) in
/-- The close is done. -/
theorem Closing.done (h : Closing id id₂ c) (hh : HandedOk hd) (hget : (core c).getT id₂ = some t)
    (hopen : Open t) (hkind : t.kind = .close) (hc : core c₂ = (core c).hand hd) (error : ℤ) :
    ∃ c₃, transactionEnd (c₂.setT id₂ (t.finished error)) id₂ m = .ok c₃ ∧ Failed id (core c₃) ∧ id₂ ∉ c₃.ops ∧
      ∃ t, c₃.getT id₂ = some t ∧ t.done = true := by
  have hp : t.isPolicy = false := by rw [Transaction.isPolicy, hkind]
  have hlt : id₂ < ((core c).hand hd).ts.length := Core.lt_of_getT hget
  have hmem : id₂ ∈ c.ops := by
    obtain ⟨ids, hops⟩ := h.first
    rw [hops]
    exact mem_cons_self
  obtain ⟨c₃, t₃, clients, hend, hdone, hsame, hcore⟩ := transactionEnd_done (m := m)
    (show ((core c).hand hd).ops.Nodup from h.failed.nodup) hlt (core_finished hp error hc) rfl rfl rfl
    (.inr ⟨rfl, hopen.dequeues (by rw [hkind]; rfl)⟩) (.inr rfl)
  obtain rfl := hsame.resolve_left (by simp [hp])
  obtain ⟨hfailed, hout⟩ := (h.failed.hand hh).leave h.ne hmem (t := t) hget t₃
  refine ⟨c₃, hend, hfailed.congr hcore, ?_, t₃, ?_, hdone⟩
  · rw [← hcore] at hout
    exact hout
  · have hget₃ := Core.getT_set (c := (core c).hand hd)
      (show (core c₃).ts = ((core c).hand hd).ts.set id₂ (some t₃) from congrArg Core.ts hcore) hlt id₂
    rw [if_pos rfl] at hget₃
    exact hget₃

/-- A close message in the loop: the close is done, or goes on. -/
theorem closeMessage_spec (h : Closing id id₂ c) (hcrc : env.crc m = true)
    (hop : u32 m 0 = cClosereq ∨ u32 m 0 = cCloseack) : ∃ c₃, closeMessage env c m = .ok c₃ ∧
      (Failed id (core c₃) ∧ id₂ ∉ c₃.ops ∧ (∃ t, c₃.getT id₂ = some t ∧ t.done = true) ∨
        Closing id id₂ c₃ ∧ u32 m 0 = cClosereq ∧ ¬ Ends env c m) := by
  obtain ⟨t, hget, hopen, hkind, hopcodes⟩ := h.close
  obtain ⟨ids, hops⟩ := h.first
  have htoken : t.token = noToken := hopen.token (by simp [hkind])
  have hlisted : u32 m 0 ∈ listed t := by
    rw [listed, hopcodes]
    rcases hop with hop | hop <;> rw [hop] <;> decide
  have hcore : core (c.noteClose m) = core c := core_noteClose m
  have hfind : findMatch (c.noteClose m) noToken false (u32 m 0) (c.noteClose m).ops = .ok (some (id₂, t)) := by
    have hops' : (c.noteClose m).ops = id₂ :: ids := (congrArg Core.ops hcore).trans hops
    have hget' : (c.noteClose m).getT id₂ = some t := (congrArg (fun k => Core.getT k id₂) hcore).trans hget
    rw [hops', findMatch, hget']
    dsimp only
    rw [transactionMatch_eq hopen (fun hne => absurd rfl hne) fun _ _ => hlisted, decide_eq_true ⟨htoken, hlisted⟩]
  have hproc : t.process = some .close := hkind ▸ hopen.process
  have hh : HandedOk ⟨u32 m 0, msgToken m, t⟩ := by
    refine ⟨?_, hlisted⟩
    rw [msgToken, if_neg (by rcases hop with hop | hop <;> rw [hop] <;> decide)]
    exact htoken.symm
  generalize hd' : (⟨u32 m 0, msgToken m, t⟩ : Handed) = hd at hh
  generalize hn : ({ c.noteClose m with handed := (c.noteClose m).handed ++ [hd] } : AnoubisClient) = n
  have hcore' : core n = (core c).hand hd := by rw [← hn, core_handed, hcore]
  have hfields : n.sentclosereq = true ∧ n.chan = true := by
    obtain ⟨hc, -, -, hr⟩ := noteClose_fields (c := c) (m := m)
    rw [← hn]
    exact ⟨hr.trans h.request, hc.trans h.chan⟩
  have hends : Ends env c m → Ends env n m := by
    obtain ⟨-, ht, hs, -⟩ := noteClose_fields (c := c) (m := m)
    rintro (hack | ⟨hreq, hrest⟩)
    · exact .inl hack
    · have hgot := (noteClose_closereq (c := c) hreq).2
      refine .inr ⟨hreq, ?_⟩
      rw [← hn]
      show _ ∨ (c.noteClose m).gotcloseack = true ∨ (c.noteClose m).sentcloseack = false ∧
        env.sendmsg (c.noteClose m).tries = false
      rwa [hgot, hs, ht]
  have hsteps : closeMessage env c m = transactionEnd (clientCloseSteps env n id₂ t m) id₂ m := by
    rw [closeMessage, if_pos hop, clientContinue, hfind]
    show ((transactionProcess (closeOnly env) (c.noteClose m) id₂ t m).map fun c => ((1 : ℤ), c)).map Prod.snd = _
    have hprocess : transactionProcess (closeOnly env) (c.noteClose m) id₂ t m =
        transactionEnd (clientCloseSteps env n id₂ t m) id₂ m := by
      rw [transactionProcess, closeOnly, if_pos hproc, hd', hn]
      rfl
    rw [hprocess]
    cases transactionEnd (clientCloseSteps env n id₂ t m) id₂ m <;> rfl
  have hstage : core (closeStage env n m).2 = (core c).hand hd := core_closeStage.trans hcore'
  rw [hsteps, clientCloseSteps]
  dsimp only
  split
  · obtain ⟨c₃, hend, hrest⟩ := h.done { (closeStage env n m).2 with chan := false, state := .error } m
      hh hget hopen hkind hstage _
    exact ⟨c₃, hend, .inl hrest⟩
  · obtain ⟨c₃, hend, hrest⟩ := h.done { (closeStage env n m).2 with chan := false, state := .closed } m
      hh hget hopen hkind hstage _
    exact ⟨c₃, hend, .inl hrest⟩
  · rename_i hopenStage
    obtain ⟨hreq, hnot, -, -, hchan, hsentreq⟩ := closeStage_open hop hfields.1 hfields.2 hcrc hopenStage
    have hgetn : ((core c).hand hd).getT id₂ = some t := hget
    obtain ⟨c₃, hend, heq, hcore₃⟩ := transactionEnd_waits (m := m) (Core.lt_of_getT hgetn)
      (hstage.trans (Core.waits_self hgetn).symm) hopen.notDone
    have hopen' : Open { t with msg := if t.wantall then t.msg ++ [m] else t.msg } :=
      hopen.flags rfl rfl rfl rfl rfl rfl rfl
    have hfailed := (h.failed.hand hh).waits h.ne hgetn hopen' rfl rfl
    refine ⟨c₃, hend, .inr ⟨⟨hfailed.congr hcore₃, ⟨ids, ?_⟩, h.ne, ?_, ?_, ?_⟩, hreq, fun he => hnot (hends he)⟩⟩
    · exact (congrArg Core.ops hcore₃).trans hops
    · refine ⟨{ t with msg := if t.wantall then t.msg ++ [m] else t.msg }, ?_, hopen', hkind, hopcodes⟩
      have hget₃ := Core.getT_set (c := (core c).hand hd) (show (core c₃).ts = ((core c).hand hd).ts.set id₂
        (some { t with msg := if t.wantall then t.msg ++ [m] else t.msg }) from congrArg Core.ts hcore₃) (Core.lt_of_getT hgetn) id₂
      rwa [if_pos rfl] at hget₃
    · rw [heq]
      exact hsentreq
    · rw [heq]
      exact hchan

/-- The loop reaches the end of the close. -/
theorem closeLoop_spec {ms : List Bytes} (h : Closing id id₂ c) (hends : CloseEnds env c ms) :
    ∃ c₃, closeLoop env id₂ c ms = .ok c₃ ∧ Failed id (core c₃) ∧ id₂ ∉ c₃.ops := by
  induction ms generalizing c with
  | nil => exact absurd hends (fun h => h)
  | cons m ms ih =>
    obtain ⟨hverify, hcrc, hrest⟩ := hends
    rw [closeLoop, if_neg (by simp [h.chan, hverify, hcrc])]
    by_cases hop : u32 m 0 = cClosereq ∨ u32 m 0 = cCloseack
    · obtain ⟨c₃, hmessage, ⟨hfailed, hout, t, hget, hdone⟩ | ⟨hclosing, hreq, hnot⟩⟩ := closeMessage_spec h hcrc hop
      · rw [hmessage]
        refine ⟨c₃, ?_, hfailed, hout⟩
        simp only [bind, Except.bind, hget, hdone, if_true]
      · rw [hmessage]
        obtain ⟨c₄, hloop, hc₄⟩ := ih hclosing ((hrest.resolve_left hnot).goesOn hreq hnot)
        obtain ⟨t, hget, hopen, -⟩ := hclosing.close
        have hget' : c₃.getT id₂ = some t := hget
        refine ⟨c₄, ?_, hc₄⟩
        simp only [bind, Except.bind, hget', hopen.notDone, Bool.false_eq_true, if_false]
        exact hloop
    · have hmessage : closeMessage env c m = .ok c := if_neg hop
      have hnot : ¬ Ends env c m := fun he => hop (he.symm.imp (fun h => h.1) fun h => h)
      obtain ⟨c₄, hloop, hc₄⟩ := ih h (hrest.resolve_left hnot)
      obtain ⟨t, hget, hopen, -⟩ := h.close
      have hget' : c.getT id₂ = some t := hget
      rw [hmessage]
      refine ⟨c₄, ?_, hc₄⟩
      simp only [bind, Except.bind, hget', hopen.notDone, Bool.false_eq_true, if_false]
      exact hloop

/-- The transaction of a close. -/
def closeTransaction : Transaction :=
  { Transaction.create noToken .close with dequeue := true, opcodes := some [cClosereq, cCloseack, 0] }

theorem open_closeTransaction : Open closeTransaction :=
  ⟨rfl, rfl, ⟨_, rfl, [cClosereq, cCloseack], 0, rfl, .inl rfl, by decide⟩, fun _ => rfl, fun h => (by cases h),
    .inl rfl, fun h => (by cases h)⟩

/-- Where the close request was sent, its transaction is the first. -/
theorem clientCloseStart_some (h : (clientCloseStart env c).1 = some id₂) :
    id₂ = c.ts.length ∧ (clientCloseStart env c).2.sentclosereq = true ∧ (clientCloseStart env c).2.chan = true ∧
      core (clientCloseStart env c).2 =
        { core c with ops := c.ts.length :: c.ops, ts := c.ts ++ [some closeTransaction] } := by
  rw [clientCloseStart] at h ⊢
  split at h
  · cases h
  · rename_i hreq
    rw [if_neg hreq]
    dsimp only at h ⊢
    by_cases hsend : c.chan = true ∧ env.sendmsg c.tries = true
    · rw [sendGeneral_of hsend.1 hsend.2] at h ⊢
      dsimp only at h ⊢
      rw [if_neg (by simp)] at h ⊢
      exact ⟨(some.inj h).symm, rfl, hsend.1, rfl⟩
    · have hno : (sendGeneral env c cClosereq).1 = false := by
        rw [sendGeneral, clientSend, if_neg hsend]
      rw [if_pos hno] at h
      cases h

theorem clientCloseStart_none (h : (clientCloseStart env c).1 = none) : core (clientCloseStart env c).2 = core c := by
  rw [clientCloseStart] at h ⊢
  split at h
  · rename_i hreq
    rw [if_pos hreq]
  · rename_i hreq
    rw [if_neg hreq]
    dsimp only at h ⊢
    split at h
    · rename_i hno
      rw [if_pos hno]
      exact core_clientSend _
    · cases h

/-- The close of a connect that has failed. -/
theorem clientClose_spec {pending : List Bytes} (h : Failed id (core c))
    (hends : (clientCloseStart env c).1 ≠ none → CloseEnds env (clientCloseStart env c).2 pending) :
    ∃ c₃, clientClose env c pending = .ok c₃ ∧ Failed id (core c₃) := by
  rw [clientClose]
  cases hstart : (clientCloseStart env c).1 with
  | none =>
    refine ⟨_, rfl, ?_⟩
    exact h.congr (clientCloseStart_none hstart)
  | some id₂ =>
    obtain ⟨rfl, hreq, hchan, hcore⟩ := clientCloseStart_some hstart
    obtain ⟨t, proto, hget, ht⟩ := h.result
    have hlt : id < c.ts.length := Core.lt_of_getT hget
    have hinsert : Failed id { core c with ops := c.ts.length :: c.ops, ts := c.ts ++ [some closeTransaction] } := by
      have hne : c.ts.length ≠ id := by omega
      refine ⟨?_, nodup_cons.mpr ⟨fun hm => ?_, h.nodup⟩, mem_cons_of_mem _ h.mem, h.new, t, proto, ?_, ht⟩
      · refine h.rest.insert open_closeTransaction (fun hp => (by cases hp)) (fun _ hk => (by cases hk)) (Or.inr rfl)
          ?_ rfl (Bool.or_false _).symm rfl rfl
        exact erase_cons_tail (by simpa using hne)
      · obtain ⟨u, hu, -⟩ := h.rest.isOpen _ ((mem_erase_of_ne hne).mpr hm)
        exact Nat.lt_irrefl _ (Core.lt_of_getT (c := (core c).without id) hu)
      · rw [Core.getT, getElem?_append_left hlt]
        exact hget
    have hclosing : Closing id c.ts.length (clientCloseStart env c).2 := by
      refine ⟨hinsert.congr hcore, ⟨c.ops, congrArg Core.ops hcore⟩, by omega, ⟨closeTransaction, ?_,
        open_closeTransaction, rfl, rfl⟩, hreq, hchan⟩
      rw [hcore, Core.getT, getElem?_concat_length]
      rfl
    obtain ⟨c₃, hloop, hfailed, hout⟩ := closeLoop_spec hclosing (hends (by simp [hstart]))
    refine ⟨c₃.free c.ts.length, ?_, hfailed.free hout⟩
    dsimp only
    rw [hloop]
    rfl

/-- The client when its connect has failed. -/
def failedConnect (env : Env) (c : AnoubisClient) (id : ℕ) (t : Transaction) (proto : Protos) (m : Bytes) :
    Option AnoubisClient :=
  match connectStage env c proto t.stage m with
  | (.error ret, c) => some (AnoubisClient.setT { c with state := .error } id (t.finished (-ret)))
  | (.ok _, _) => none

/-- A connect. -/
theorem clientConnectSteps_spec {pending : List Bytes} {proto : Protos} (hok : OpsOk (core c)) (hid : id ∈ c.ops)
    (hget : (core c).getT id = some t) (hk : t.kind = .connect proto)
    (hends : ∀ c₁, failedConnect env c id t proto m = some c₁ → (clientCloseStart env c₁).1 ≠ none →
      CloseEnds env (clientCloseStart env c₁).2 pending) :
    ∃ c₂, clientConnectSteps env pending proto c id t m = .ok c₂ ∧
      (Stepped (core c) id t (core c₂) ∨ Failed id (core c₂)) := by
  obtain ⟨u, hu, hopen⟩ := hok.isOpen id hid
  cases hget.symm.trans hu
  obtain ⟨hcore, hterm⟩ := connectStage_spec env c m proto t.stage
  rw [clientConnectSteps]
  rw [failedConnect] at hends
  generalize connectStage env c proto t.stage m = r at *
  obtain ⟨res, c₁⟩ := r
  have hcore₁ : core c₁ = core c := hcore
  cases res with
  | error ret =>
    obtain ⟨c₃, hclose, hfailed⟩ := clientClose_spec (c := AnoubisClient.setT { c₁ with state := .error } id
      (t.finished (-ret))) (Failed.congr (Failed.finished hok hid hget hk (-ret)) (by
        rw [← hcore₁]
        rfl)) (hends _ rfl)
    exact ⟨c₃, hclose, .inr hfailed⟩
  | ok next =>
    cases next with
    | progress opcodes =>
      refine ⟨_, rfl, .inl ?_⟩
      rw [core_setT, hcore₁]
      exact .waits _ (hopen.progress (hterm opcodes rfl) (by simp [hk])) rfl rfl
    | stay => exact ⟨_, rfl, .inl (.same hget hopen hcore₁)⟩
    | done =>
      refine ⟨_, rfl, .inl (.finished c₁ hopen (by rw [hk]; rfl) ?_ 0 hcore₁)⟩
      rw [Transaction.isPolicy, hk]

end Loop

end Anoubis.Client

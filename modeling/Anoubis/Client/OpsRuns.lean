import Anoubis.Client.OpsSteps

/-! The transactions of a client in every run.

    The list is sound along every run whose calls meet three conditions: a registration can send its message, a
    message meets no array of opcodes without its opcode that ends with -1 instead of zero, and a connect that is
    refused finds the end of its close among the messages that still arrive. -/

namespace Anoubis.Client

open List

open Anoubis.Lib Option
open Anoubis.Connection (Bytes u16 u32 tokenOf noToken Protos cClosereq cCloseack)
open Anoubis.MsgVerify (verifyLength)

/-! ### Dispatch -/

/-- The token that `anoubis_client_process` looks for, where it gets that far. -/
def dispatch (env : Env) (c : AnoubisClient) (m : Bytes) : Option Bytes :=
  let r := clientVerify env c m
  if env.verify m = false ∨ r.1 = false ∨ r.2.state = .closed ∨ r.2.state = .error then none
  else if r.2.proto = Protos.connect then some noToken
  else if u32 m 0 = pReply then if verifyLength m 20 = false then none else some (tokenOf m)
  else if Connection.isNotify (u32 m 0) then none else some noToken

/-- The client when the transaction `t` gets the message. -/
def received (env : Env) (c : AnoubisClient) (m : Bytes) (t : Transaction) : AnoubisClient :=
  { (clientVerify env c m).2 with handed := (clientVerify env c m).2.handed ++ [⟨u32 m 0, msgToken m, t⟩] }

/-- A message is no danger to the list: see above. The token of an acknowledgement is not looked at while the client
    connects. -/
def MessageMeets (env : Env) (c : AnoubisClient) (m : Bytes) (pending : List Bytes) : Prop :=
  ∀ token, dispatch env c m = some token → Clear (core c) token (u32 m 0) c.ops ∧
    ∀ id t, waiting (core c) token (u32 m 0) c.ops = some (id, t) → msgToken m = token ∧
      ∀ proto, t.kind = .connect proto → ∀ c₁, failedConnect env (received env c m t) id t proto m = some c₁ →
        (clientCloseStart env c₁).1 ≠ none → CloseEnds env (clientCloseStart env c₁).2 pending

/-- The message of a registration can be sent. -/
def RegisterMeets (env : Env) (c : AnoubisClient) (token : Bytes) : Prop :=
  c.proto.notify = true → c.state = .connected → token ≠ noToken → c.chan = true ∧ env.sendmsg c.tries = true

/-- The condition on a call. -/
def CallMeets (env : Env) (c : AnoubisClient) : Act → Prop
  | .registerStart token _ _ _ => RegisterMeets env c token
  | .unregisterStart token _ _ _ => RegisterMeets env c token
  | .process m pending => MessageMeets env c m pending
  | _ => True

section Dispatch

variable {env : Env} {pending : List Bytes} {c : AnoubisClient} {m token : Bytes}

theorem core_clientProcessEvent : core (clientProcessEvent c m).2 = core c := by
  rw [clientProcessEvent]
  split
  · rfl
  · split <;> rfl

variable (pending) in
/-- No transaction is looked for. -/
theorem clientProcess_none (h : dispatch env c m = none) :
    ∃ x, clientProcess env pending c m = .ok x ∧ core x.2 = core c := by
  have hv : core (clientVerify env c m).2 = core c := core_clientVerify
  rw [dispatch] at h
  rw [clientProcess]
  by_cases hverify : env.verify m = false
  · exact ⟨_, if_pos hverify, rfl⟩
  rw [if_neg hverify]
  dsimp only at h ⊢
  generalize clientVerify env c m = r at h hv
  by_cases hcheck : r.1 = false
  · exact ⟨_, if_pos hcheck, hv⟩
  rw [if_neg hcheck]
  by_cases hstate : r.2.state = .closed ∨ r.2.state = .error
  · exact ⟨_, if_pos hstate, hv⟩
  rw [if_neg hstate]
  rw [if_neg (by tauto)] at h
  split at h
  · cases h
  rename_i hproto
  rw [if_neg hproto]
  split at h
  · rename_i hreply
    rw [if_pos hreply]
    split at h
    · rename_i hlen
      exact ⟨_, if_pos hlen, hv⟩
    · cases h
  rename_i hreply
  rw [if_neg hreply]
  split at h
  · rename_i hnotify
    rw [if_pos hnotify]
    split
    · exact ⟨_, rfl, hv⟩
    split
    · exact ⟨_, rfl, hv⟩
    · exact ⟨_, rfl, core_clientProcessEvent.trans hv⟩
  · cases h

variable (pending) in
theorem clientProcess_some (h : dispatch env c m = some token) : ∃ self, (token ≠ noToken → self = true) ∧
    clientProcess env pending c m =
      clientContinue (processSteps env pending) (clientVerify env c m).2 m token self := by
  rw [dispatch] at h
  rw [clientProcess]
  dsimp only at h ⊢
  generalize clientVerify env c m = r at h
  split at h
  · cases h
  rename_i hall
  obtain ⟨hverify, hcheck, hstate⟩ : ¬ env.verify m = false ∧ ¬ r.1 = false ∧
      ¬ (r.2.state = .closed ∨ r.2.state = .error) := by tauto
  rw [if_neg hverify, if_neg hcheck, if_neg hstate]
  split at h
  · rename_i hproto
    cases h
    exact ⟨false, fun hne => absurd rfl hne, if_pos hproto⟩
  rename_i hproto
  rw [if_neg hproto]
  split at h
  · rename_i hreply
    rw [if_pos hreply]
    split at h
    · cases h
    · rename_i hlen
      cases h
      exact ⟨true, fun _ => rfl, if_neg hlen⟩
  · rename_i hreply
    rw [if_neg hreply]
    split at h
    · cases h
    · rename_i hnotify
      cases h
      exact ⟨true, fun _ => rfl, if_neg hnotify⟩

variable (pending) in
/-- The transaction that the message is for processes it. -/
theorem transactionProcess_spec {id : ℕ} {t : Transaction} (hok : OpsOk (core c)) (hid : id ∈ c.ops)
    (hget : (core c).getT id = some t) (hlisted : u32 m 0 ∈ listed t) (htoken : msgToken m = t.token)
    (hends : ∀ proto, t.kind = .connect proto → ∀ c₁, failedConnect env (received env c m t) id t proto m = some c₁ →
      (clientCloseStart env c₁).1 ≠ none → CloseEnds env (clientCloseStart env c₁).2 pending) :
    transactionProcess (processSteps env pending) (clientVerify env c m).2 id t m = .error .buffer ∨
      ∃ x, transactionProcess (processSteps env pending) (clientVerify env c m).2 id t m = .ok x ∧ OpsOk (core x) := by
  obtain ⟨u, hu, hopen⟩ := hok.isOpen id hid
  cases hget.symm.trans hu
  have hcore : core (received env c m t) = (core c).hand ⟨u32 m 0, msgToken m, t⟩ :=
    congrArg (fun k => Core.hand k ⟨u32 m 0, msgToken m, t⟩) core_clientVerify
  have hok' : OpsOk (core (received env c m t)) := hcore ▸ hok.hand ⟨htoken, hlisted⟩
  have hid' : id ∈ (received env c m t).ops := by
    have hops : (received env c m t).ops = c.ops := congrArg Core.ops hcore
    rwa [hops]
  have hget' : (core (received env c m t)).getT id = some t := hcore ▸ hget
  have hprocess : transactionProcess (processSteps env pending) (clientVerify env c m).2 id t m =
      (processSteps env pending (received env c m t) id t m).bind fun c => transactionEnd c id m := rfl
  rw [hprocess]
  have hend : ∀ c₂, Stepped (core (received env c m t)) id t (core c₂) →
      ∃ c₃, transactionEnd c₂ id m = .ok c₃ ∧ OpsOk (core c₃) := by
    intro c₂ hstepped
    obtain ⟨c₃, hc₃, hprocessed⟩ := transactionEnd_spec (m := m) hok'.nodup (Core.lt_of_getT hget') hstepped
    exact ⟨c₃, hc₃, hprocessed.opsOk hok' hid' hget'⟩
  by_cases hconnect : ∃ proto, t.kind = .connect proto
  · obtain ⟨proto, hk⟩ := hconnect
    have hsteps : processSteps env pending (received env c m t) id t m =
        clientConnectSteps env pending proto (received env c m t) id t m := by
      rw [processSteps, hopen.process, hk]
    obtain ⟨c₂, hc₂, hresult⟩ := clientConnectSteps_spec hok' hid' hget' hk (hends proto hk)
    rw [hsteps, hc₂]
    rcases hresult with hstepped | hfailed
    · exact .inr (hend c₂ hstepped)
    · exact .inr (hfailed.ends m)
  · have hack : t.kind = .ack → tokenOf m = t.token := by
      intro hk
      rw [hopen.acks hk] at hlisted
      rw [← htoken, msgToken, if_pos (mem_singleton.mp hlisted)]
    rcases processSteps_stepped env pending m hok' hid' hget' hack
      (fun proto hk => hconnect ⟨proto, hk⟩) with hbuffer | ⟨c₂, hc₂, hstepped⟩
    · rw [hbuffer]
      exact .inl rfl
    · rw [hc₂]
      exact .inr (hend c₂ hstepped)

variable (env pending) in
/-- A message that meets the condition. -/
theorem clientProcess_spec (hok : OpsOk (core c)) (hmeets : MessageMeets env c m pending) :
    clientProcess env pending c m = .error .buffer ∨
      ∃ x, clientProcess env pending c m = .ok x ∧ OpsOk (core x.2) := by
  cases hdispatch : dispatch env c m with
  | none =>
    obtain ⟨x, hx, hcore⟩ := clientProcess_none pending hdispatch
    exact .inr ⟨x, hx, hcore ▸ hok⟩
  | some token =>
    obtain ⟨self, hself, heq⟩ := clientProcess_some pending hdispatch
    obtain ⟨hclear, hwaiting⟩ := hmeets token hdispatch
    have hv : core (clientVerify env c m).2 = core c := core_clientVerify
    have hfind : findMatch (clientVerify env c m).2 token self (u32 m 0) (clientVerify env c m).2.ops =
        .ok (waiting (core c) token (u32 m 0) c.ops) := by
      rw [show (clientVerify env c m).2.ops = c.ops from congrArg Core.ops hv, ← hv]
      rw [← hv] at hok hclear
      exact findMatch_eq (fun id hid => hok.isOpen id ((congrArg Core.ops hv).symm ▸ hid)) hself hclear
    rw [heq, clientContinue, hfind]
    cases hw : waiting (core c) token (u32 m 0) c.ops with
    | none => exact .inr ⟨_, rfl, hv ▸ hok⟩
    | some x =>
      obtain ⟨id, t⟩ := x
      obtain ⟨hid, hget, htoken, hlisted⟩ := waiting_spec hw
      obtain ⟨hmsg, hends⟩ := hwaiting id t hw
      show Except.map _ (transactionProcess _ _ id t m) = _ ∨
        ∃ x, Except.map _ (transactionProcess _ _ id t m) = _ ∧ _
      rcases transactionProcess_spec pending hok hid hget hlisted (hmsg.trans htoken.symm) hends with
        hbuffer | ⟨c₃, hc₃, hok₃⟩
      · rw [hbuffer]
        exact .inl rfl
      · rw [hc₃]
        exact .inr ⟨_, rfl, hok₃⟩

end Dispatch

/-! ### Starting -/

section Start

variable {env : Env} {c : AnoubisClient} {t : Transaction}

theorem OpsOk.insertAt {k : Core} (h : OpsOk k) (ht : Open t) (hp : t.isPolicy = false) :
    OpsOk { k with ops := k.ts.length :: k.ops, ts := k.ts ++ [some t] } := by
  refine h.insert ht (fun hpol => ?_) (fun r hk => ?_) (.inr rfl) rfl rfl ?_ rfl rfl
  · rw [hp] at hpol
    cases hpol
  · rw [Transaction.isPolicy, hk] at hp
    cases hp
  · rw [hp, Bool.or_false]

theorem clientConnectStart_spec (h : OpsOk (core c)) (proto : Protos) : OpsOk (core (clientConnectStart c proto).2) := by
  rw [clientConnectStart]
  split
  · exact h
  · exact h.insertAt ⟨rfl, rfl, ⟨_, rfl, [cHello], 0, rfl, .inl rfl, by decide⟩, fun _ => rfl, fun h => (by cases h),
      .inl rfl, fun _ h => (by cases h)⟩ rfl

theorem clientCloseStart_spec (h : OpsOk (core c)) : OpsOk (core (clientCloseStart env c).2) := by
  cases hstart : (clientCloseStart env c).1 with
  | none => exact clientCloseStart_none hstart ▸ h
  | some id =>
    obtain ⟨-, -, -, hcore⟩ := clientCloseStart_some hstart
    rw [hcore]
    exact h.insertAt open_closeTransaction rfl

/-- A registration enters the list before its message is sent. -/
theorem clientRegisterStartCommon_spec (h : OpsOk (core c)) {token : Bytes} (hmeets : RegisterMeets env c token)
    (opcode uid ruleId subsystem : ℕ) :
    OpsOk (core (clientRegisterStartCommon env c opcode token uid ruleId subsystem).2) := by
  rw [clientRegisterStartCommon]
  split
  · exact h
  rename_i hready
  obtain ⟨hnotify, hstate, htoken⟩ : c.proto.notify = true ∧ c.state = .connected ∧ token ≠ noToken := by
    simpa [not_or] using hready
  have hsend : ∀ o t, clientSend env (c.insert t).2 o =
      (true, { (c.insert t).2 with tries := c.tries + 1, sent := c.sent ++ [o] }) := fun o t =>
    if_pos (hmeets hnotify hstate htoken)
  dsimp only
  rw [hsend]
  dsimp only
  rw [if_pos rfl]
  refine h.insertAt ⟨rfl, rfl, ⟨_, rfl, [pReply], 0, rfl, .inl rfl, by decide⟩, fun h => absurd rfl h,
    fun _ => rfl, .inl rfl, fun h => (by cases h)⟩ ?_
  rw [Transaction.isPolicy]
  exact decide_eq_false htoken

theorem policyReady_pending (h : policyReady c = true) : c.policyPending = false := (of_decide_eq_true h).2.2

/-- A request of the policy protocol, where nothing else of it is open. -/
theorem OpsOk.insertPolicy {k : Core} (h : OpsOk k) (hfree : k.pending = false) (ht : Open t) (hp : t.isPolicy = true)
    {clients : List Bool} (hreq : ∀ r, t.kind = .csmulti r → clients[r]? = some true) :
    OpsOk ⟨k.ts.length :: k.ops, k.ts ++ [some t], true, clients, k.finish, k.handed⟩ := by
  refine h.insert ht (fun _ => hfree) hreq (.inl hp) rfl rfl ?_ rfl rfl
  rw [hp, Bool.or_true]

/-- Without such a request, the csmulti requests do not matter. -/
theorem OpsOk.anyClients {k : Core} (h : OpsOk k) (hfree : k.pending = false) (clients : List Bool) :
    OpsOk { k with clients := clients } := by
  refine ⟨h.nodup, h.isOpen, h.pending, h.single, fun id hid t r hget hk => ?_, h.finish, h.finished, h.handed⟩
  have hpending : k.pending = true := h.pending.mpr ⟨id, hid, t, hget, by rw [Transaction.isPolicy, hk]⟩
  rw [hfree] at hpending
  cases hpending

variable (env c t) in
theorem policyStart_core (ms : List Out) :
    (policyStart env c ms t).1 = none ∧ core (policyStart env c ms t).2 = core c ∨
      (∃ id, (policyStart env c ms t).1 = some id) ∧ core (policyStart env c ms t).2 =
        ⟨c.ts.length :: c.ops, c.ts ++ [some t], true, (core c).clients, c.finish, c.handed⟩ := by
  have hcore : core (sendAll env c ms).2 = core c := core_sendAll ms
  rw [policyStart]
  dsimp only
  split
  · refine .inr ⟨⟨_, rfl⟩, ?_⟩
    exact congrArg (fun k : Core => (⟨k.ts.length :: k.ops, k.ts ++ [some t], true, k.clients, k.finish,
      k.handed⟩ : Core)) hcore
  · exact .inl ⟨rfl, hcore⟩

theorem policyStart_spec (h : OpsOk (core c)) (hfree : c.policyPending = false) (ht : Open t) (hp : t.isPolicy = true)
    (hreq : ∀ r, t.kind ≠ .csmulti r) (ms : List Out) : OpsOk (core (policyStart env c ms t).2) := by
  rcases policyStart_core env c t ms with ⟨-, hcore⟩ | ⟨-, hcore⟩
  · exact hcore ▸ h
  · rw [hcore]
    exact h.insertPolicy hfree ht hp fun r hk => absurd hk (hreq r)

theorem simpleStart_spec (h : OpsOk (core c)) (ht : Open t) (hp : t.isPolicy = true) (hreq : ∀ r, t.kind ≠ .csmulti r)
    (m : Bytes) : OpsOk (core (simpleStart env c m t).2) := by
  rw [simpleStart]
  split
  · rename_i hready
    exact policyStart_spec h (policyReady_pending hready) ht hp hreq _
  · exact h

/-- A transaction of the policy protocol that ends with -1. -/
theorem open_policy {kind : Kind} {opcode : ℕ} (hopcode : opcode ≠ 0 ∧ opcode ≠ minusOne) (wantmessage wantall : Bool)
    {dequeue : Bool} (hdequeue : dequeue = true ∨ kind.dequeues = true) (hack : kind = .ack → opcode = pReply) :
    Open { Transaction.create noToken kind with
      dequeue := dequeue, wantmessage := wantmessage, wantall := wantall, opcodes := some [opcode, minusOne] } where
  notDone := rfl
  process := rfl
  opcodes := ⟨_, rfl, [opcode], minusOne, rfl, .inr rfl, by simpa using hopcode⟩
  token _ := rfl
  acks hk := by
    obtain rfl := hack hk
    rfl
  dequeue := hdequeue
  initpeer h := by cases h

theorem clientPolicyrequestStart_spec (h : OpsOk (core c)) (data : Bytes) :
    OpsOk (core (clientPolicyrequestStart env c data).2) := by
  rw [clientPolicyrequestStart]
  split
  · exact h
  · rename_i hready
    refine policyStart_spec h (policyReady_pending (by simp_all)) ?_ rfl (by simp [Transaction.create]) _
    exact open_policy (by decide) false true (.inr rfl) (by simp)

theorem clientCsumrequestStart_spec (h : OpsOk (core c)) (op : ℕ) (path : Bytes) (payload : Option Bytes)
    (cslen idlen uid flags : ℕ) :
    OpsOk (core (clientCsumrequestStart env c op path payload cslen idlen uid flags).2) := by
  rw [clientCsumrequestStart]
  split
  · exact h
  · rename_i hready
    have hfree := policyReady_pending (c := c) (by simp_all)
    by_cases hop : op = opGenericList
    · rw [if_pos hop]
      exact policyStart_spec h hfree (open_policy (by decide) false true (.inr rfl) (by simp)) rfl
        (by simp [Transaction.create]) _
    · rw [if_neg hop]
      exact policyStart_spec h hfree (open_policy (by decide) true false (.inl rfl) fun _ => rfl) rfl
        (by simp [Transaction.create]) _

variable (env) in
theorem clientCsmultiStart_spec (h : OpsOk (core c)) (request : ℕ) : clientCsmultiStart env c request = .error .buffer ∨
    ∃ x, clientCsmultiStart env c request = .ok x ∧ OpsOk (core x.2) := by
  rw [clientCsmultiStart]
  split
  · exact .inr ⟨_, rfl, h⟩
  rename_i req hreq
  split
  · exact .inr ⟨_, rfl, h⟩
  rename_i hready
  have hfree := policyReady_pending (c := c) (by simp_all)
  dsimp only
  split
  · exact .inl rfl
  · exact .inr ⟨_, rfl, h.anyClients hfree _⟩
  · rename_i m req' hmsg
    generalize hc' : ({ c with requests := c.requests.set request req' } : AnoubisClient) = c'
    have hok : OpsOk (core c') := by
      rw [← hc']
      exact h.anyClients hfree _
    have hfree' : c'.policyPending = false := by
      rw [← hc']
      exact hfree
    generalize ht : ({ Transaction.create noToken (.csmulti request) with
      dequeue := true, wantmessage := true,
      opcodes := some [if decide (c.selectedVersion < 5) then pReply else pCsmultireply, minusOne] } : Transaction) = t
    have hopen : Open t := by
      rw [← ht]
      refine open_policy ?_ true false (.inl rfl) (by simp)
      split <;> decide
    rcases policyStart_core env c' t [.csmulti m] with ⟨hnone, hcore⟩ | ⟨⟨id, hid⟩, hcore⟩
    · rw [hnone]
      exact .inr ⟨_, rfl, hcore ▸ hok⟩
    · rw [hid]
      refine .inr ⟨_, rfl, ?_⟩
      have hlt : request < c'.requests.length := by
        rw [← hc', List.length_set]
        exact (List.getElem?_eq_some_iff.mp hreq).1
      have hclients : OpsOk ⟨c'.ts.length :: c'.ops, c'.ts ++ [some t], true,
          (core c').clients.modify request fun _ => true, c'.finish, c'.handed⟩ := by
        refine hok.insertPolicy hfree' hopen (by rw [← ht]; rfl) fun r hk => ?_
        obtain rfl : request = r := by
          rw [← ht] at hk
          exact Kind.csmulti.inj hk
        have hlen : request < (core c').clients.length := by
          show request < (c'.requests.map Request.client).length
          rwa [length_map]
        rw [getElem?_modify_eq, getElem?_eq_getElem hlen]
        rfl
      have hmodify : ∀ l : List Request, (l.modify request fun req => { req with client := true }).map Request.client =
          (l.map Request.client).modify request fun _ => true := by
        intro l
        refine ext_getElem? fun j => ?_
        rw [getElem?_map, getElem?_modify, getElem?_modify, getElem?_map]
        cases l[j]? with
        | none => rfl
        | some req => by_cases hj : request = j <;> simp [hj]
      generalize (policyStart env c' [.csmulti m] t).2 = c₂ at hcore ⊢
      show OpsOk { core c₂ with clients := (c₂.requests.modify request fun req =>
        { req with client := true }).map Request.client }
      rw [hmodify, show c₂.requests.map Request.client = (core c₂).clients from rfl, hcore]
      exact hclients

end Start

/-! ### Runs -/

/-- What holds of a client at any time: `ops` holds open transactions, each once, and at most one of the policy
    protocol, which the flag tells of. The end of a transaction is handled once, and a message went only to a
    transaction of its token that lists its opcode. -/
structure Sound (c : AnoubisClient) : Prop where
  nodup : c.ops.Nodup
  isOpen : ∀ id ∈ c.ops, ∃ t, c.getT id = some t ∧ t.done = false
  finish : c.finish.Nodup ∧ ∀ id ∈ c.finish, id ∉ c.ops
  pending : c.policyPending = true ↔ ∃ id ∈ c.ops, ∃ t, c.getT id = some t ∧ t.isPolicy = true
  single : ∀ id ∈ c.ops, ∀ id' ∈ c.ops, ∀ t t', c.getT id = some t → c.getT id' = some t' → t.isPolicy = true →
    t'.isPolicy = true → id = id'
  handed : ∀ h ∈ c.handed, h.token = h.transaction.token ∧ h.opcode ∈ listed h.transaction

theorem OpsOk.sound {c : AnoubisClient} (h : OpsOk (core c)) : Sound c where
  nodup := h.nodup
  isOpen id hid := by
    obtain ⟨t, hget, hopen⟩ := h.isOpen id hid
    exact ⟨t, hget, hopen.notDone⟩
  finish := ⟨h.finish, fun id hid => (h.finished id hid).2⟩
  pending := h.pending
  single := h.single
  handed := h.handed

theorem opsOk_create (authType : ℕ) (authCallback : Bool) : OpsOk (core (.create authType authCallback)) where
  nodup := .nil
  isOpen _ h := by cases h
  pending := iff_of_false (by simp [core, AnoubisClient.create]) fun ⟨_, h, _⟩ => by cases h
  single _ h := by cases h
  requests _ h := by cases h
  finish := .nil
  finished _ h := by cases h
  handed _ h := by cases h

/-- A call that meets the condition. -/
theorem act_spec {env : Env} {c : AnoubisClient} (h : OpsOk (core c)) {a : Act} (hmeets : CallMeets env c a) :
    act env c a = .error .buffer ∨ ∃ c', act env c a = .ok c' ∧ OpsOk (core c') := by
  cases a with
  | connectStart proto => exact .inr ⟨_, rfl, clientConnectStart_spec h proto⟩
  | closeStart => exact .inr ⟨_, rfl, clientCloseStart_spec h⟩
  | registerStart token uid ruleId subsystem =>
    exact .inr ⟨_, rfl, clientRegisterStartCommon_spec h hmeets nRegister uid ruleId subsystem⟩
  | unregisterStart token uid ruleId subsystem =>
    exact .inr ⟨_, rfl, clientRegisterStartCommon_spec h hmeets nUnregister uid ruleId subsystem⟩
  | policyrequestStart data => exact .inr ⟨_, rfl, clientPolicyrequestStart_spec h data⟩
  | csumrequestStart op path payload cslen idlen uid flags =>
    exact .inr ⟨_, rfl, clientCsumrequestStart_spec h op path payload cslen idlen uid flags⟩
  | request req =>
    refine .inr ⟨_, rfl, h.nodup, h.isOpen, h.pending, h.single, fun id hid t r hget hk => ?_, h.finish, h.finished,
      h.handed⟩
    have hr : (c.requests.map Request.client)[r]? = some true := h.requests id hid t r hget hk
    show ((c.requests ++ [_]).map Request.client)[r]? = some true
    rw [List.map_append, List.getElem?_append_left (List.getElem?_eq_some_iff.mp hr).1]
    exact hr
  | csmultiStart request =>
    rcases clientCsmultiStart_spec env h request with hbuffer | ⟨x, hx, hok⟩
    · exact .inl (by rw [act, hbuffer]; rfl)
    · exact .inr ⟨x.2, by rw [act, hx]; rfl, hok⟩
  | passphraseStart passphrase =>
    exact .inr ⟨_, rfl, simpleStart_spec h (open_policy (by decide) false false (.inl rfl) fun _ => rfl) rfl
      (by simp [Transaction.create]) _⟩
  | versionStart =>
    exact .inr ⟨_, rfl, simpleStart_spec h (open_policy (by decide) false true (.inr rfl) (by simp)) rfl
      (by simp [Transaction.create]) _⟩
  | listStart listtype arg =>
    exact .inr ⟨_, rfl, simpleStart_spec h (open_policy (by decide) false true (.inr rfl) (by simp)) rfl
      (by simp [Transaction.create]) _⟩
  | pgcommitStart pgid path ignore =>
    refine .inr ⟨_, rfl, ?_⟩
    rw [clientPgcommitStart]
    split
    · exact h
    · exact simpleStart_spec h (open_policy (by decide) false true (.inl rfl) fun _ => rfl) rfl
        (by simp [Transaction.create]) _
  | pgunlinkStart pgid dev ino =>
    exact .inr ⟨_, rfl, simpleStart_spec h (open_policy (by decide) false true (.inl rfl) fun _ => rfl) rfl
      (by simp [Transaction.create]) _⟩
  | process m pending =>
    rcases clientProcess_spec env pending h hmeets with hbuffer | ⟨x, hx, hok⟩
    · exact .inl (by rw [act, hbuffer]; rfl)
    · exact .inr ⟨x.2, by rw [act, hx]; rfl, hok⟩

theorem clientStep_keeps {env : Env} {c c' : AnoubisClient} {a : Act} (h : OpsOk (core c)) (hmeets : CallMeets env c a)
    (hs : clientStep env c a = some c') : OpsOk (core c') := by
  rcases act_spec h hmeets with hbuffer | ⟨c₁, hc₁, hok⟩
  · rw [clientStep, hbuffer] at hs
    cases hs
  · rw [clientStep, hc₁] at hs
    exact some.inj hs ▸ hok

/-- The transactions of a client in every run that meets the condition: no call reads behind an array of opcodes or
    uses a transaction that was freed; what is left is a csmulti request that leaves its buffers. -/
theorem transactions_accounted (env : Env) (authType : ℕ) (authCallback : Bool) {acts : List Act} {c : AnoubisClient}
    (ha : Along (clientStep env) (CallMeets env) (.create authType authCallback) acts)
    (hr : runs (clientStep env) (.create authType authCallback) acts = some c) :
    Sound c ∧ ∀ a, CallMeets env c a → ∀ fault, act env c a = .error fault → fault = .buffer := by
  have hok : OpsOk (core c) :=
    runs_invariant (I := fun c => OpsOk (core c)) (fun c a c' h hm hs => clientStep_keeps h hm hs)
      (opsOk_create authType authCallback) ha hr
  refine ⟨hok.sound, fun a hm fault hf => ?_⟩
  rcases act_spec hok hm with hbuffer | ⟨c', hc', -⟩
  · rw [hf] at hbuffer
    exact Except.error.inj hbuffer
  · rw [hf] at hc'
    cases hc'

/-- Everything is sent and passes the checks. -/
def plainEnv : Env := ⟨fun _ => true, fun _ => true, fun _ => true, fun _ => (0, none)⟩

/-- The protocols POLICY only. -/
def policyProtos : Protos := { Protos.connect with policy := true }

/-- A HELLO of the version 8, without its checksum. -/
def sampleHello : Bytes := be32 cHello ++ be16 8 ++ be16 8

/-- An acknowledgement of the request `origop`. -/
def sampleAck (origop : ℕ) : Bytes := be32 pReply ++ noToken ++ be32 origop ++ be32 0

def withSum (m : Bytes) : Bytes := m ++ [0, 0, 0, 0]

/-- The transaction of a connect. -/
def connectTransaction (proto : Protos) : Transaction :=
  { Transaction.create noToken (.connect proto) with
    initself := false, initpeer := true, dequeue := true, stage := 1, opcodes := some [cHello, 0] }

/-- A client connects, and gets the HELLO of the server. -/
theorem transactions_accounted_hello : ∃ c,
    runs (clientStep plainEnv) (.create 0 false) [.connectStart policyProtos, .process (withSum sampleHello) []] =
      some c ∧ Sound c ∧ ∀ a, CallMeets plainEnv c a → ∀ fault, act plainEnv c a = .error fault → fault = .buffer := by
  obtain ⟨c, hr⟩ : ∃ c, runs (clientStep plainEnv) (.create 0 false)
      [.connectStart policyProtos, .process (withSum sampleHello) []] = some c :=
    Option.isSome_iff_exists.mp (by decide +kernel)
  have hsound : Along (clientStep plainEnv) (CallMeets plainEnv) (.create 0 false)
      [.connectStart policyProtos, .process (withSum sampleHello) []] → Sound c ∧
        ∀ a, CallMeets plainEnv c a → ∀ fault, act plainEnv c a = .error fault → fault = .buffer :=
    fun ha => transactions_accounted plainEnv 0 false ha hr
  refine ⟨c, hr, hsound ⟨trivial, fun s hs => ⟨?_, fun _ _ => trivial⟩⟩⟩
  obtain rfl := Option.some.inj hs
  intro token htoken
  obtain rfl : noToken = token := Option.some.inj ((show dispatch plainEnv
    (clientConnectStart (.create 0 false) policyProtos).2 (withSum sampleHello) = some noToken by decide +kernel).symm.trans
      htoken)
  refine ⟨fun t ht => ⟨fun _ hends => ?_, fun _ => trivial⟩, fun id t hw => ⟨by decide, fun proto hk c₁ hc₁ => ?_⟩⟩
  · obtain rfl := Option.some.inj ht
    exact absurd hends (by rw [EndsMinusOne]; decide)
  · have hwaiting : waiting (core (clientConnectStart (.create 0 false) policyProtos).2) noToken
        (u32 (withSum sampleHello) 0) (clientConnectStart (.create 0 false) policyProtos).2.ops =
          some (0, connectTransaction policyProtos) := by decide +kernel
    obtain ⟨rfl, rfl⟩ := Prod.mk.inj (Option.some.inj (hwaiting.symm.trans hw))
    obtain rfl := Kind.connect.inj hk
    have hnone : failedConnect plainEnv (received plainEnv (clientConnectStart (.create 0 false) policyProtos).2
        (withSum sampleHello) (connectTransaction policyProtos)) 0 (connectTransaction policyProtos) policyProtos
        (withSum sampleHello) = none := by decide +kernel
    cases hnone.symm.trans hc₁

/-- A client with an open version request gets a CLOSEREQ: the search for its transaction leaves the array of the
    opcodes of the request. -/
theorem transactions_miscounted :
    (runs (clientStep plainEnv) (.create 0 false) [.connectStart policyProtos,
      .process (withSum sampleHello) [], .process (withSum (sampleAck cVersel)) [],
      .process (withSum (sampleAck cAuth)) [], .process (withSum (be32 cAuthreply ++ be32 0 ++ be32 1000)) [],
      .process (withSum (be32 cOptack ++ be32 0)) [], .process (withSum (sampleAck cProtosel)) [], .versionStart]).map
        (fun c => match act plainEnv c (.process (withSum (be32 cClosereq)) []) with
          | .error fault => (c.state, c.policyPending, some fault)
          | .ok _ => (c.state, c.policyPending, none)) = some (.connected, true, some .beyond) := by
  decide +kernel

end Anoubis.Client

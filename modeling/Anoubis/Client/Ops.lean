import Anoubis.Client.Start

/-! The list of open transactions.

    `OpsOk` says that the list holds transactions that are neither done nor freed, each once, that at most one of them
    belongs to the policy protocol and that the flag tells whether there is one. What a call does to it is one of
    three things:

        insert t      waits id       done id
        t :: ops      ops            ops without id     -/

namespace Anoubis.Client

open Option

open Anoubis.Lib List
open Anoubis.Connection (Bytes u16 u32 tokenOf noToken Protos cClosereq cCloseack)

/-! ### Arrays of opcodes -/

/-- The opcodes before the terminator. -/
def listed (t : Transaction) : List ℕ := (t.opcodes.getD []).takeWhile fun o => decide (o ≠ 0 ∧ o ≠ minusOne)

/-- The array ends with -1. -/
def EndsMinusOne (t : Transaction) : Prop := (t.opcodes.getD []).getLast? = some minusOne

/-- An array of opcodes with its terminator. -/
def Terminated (opcodes : List ℕ) : Prop :=
  ∃ l x, opcodes = l ++ [x] ∧ (x = 0 ∨ x = minusOne) ∧ ∀ o ∈ l, o ≠ 0 ∧ o ≠ minusOne

section Opcodes

variable {l : List ℕ} {opcode : ℕ}

theorem takeWhile_terminated {x : ℕ} (hx : x = 0 ∨ x = minusOne) (hl : ∀ o ∈ l, o ≠ 0 ∧ o ≠ minusOne) :
    (l ++ [x]).takeWhile (fun o => decide (o ≠ 0 ∧ o ≠ minusOne)) = l := by
  rw [takeWhile_append_of_pos (by simpa using hl), takeWhile_cons_of_neg, append_nil]
  rcases hx with rfl | rfl <;> simp

theorem opcodesMatch_listed (hl : ∀ o ∈ l, o ≠ 0 ∧ o ≠ minusOne) (h : opcode ∈ l) (rest : List ℕ) :
    opcodesMatch (l ++ rest) opcode = some true := by
  induction l with
  | nil => cases h
  | cons o l ih =>
    have ho := (hl o mem_cons_self).1
    rw [cons_append, opcodesMatch, if_pos (by omega)]
    by_cases heq : o = opcode
    · rw [if_pos heq]
    · rw [if_neg heq]
      refine ih (fun o ho => hl o (mem_cons_of_mem _ ho)) ?_
      exact (mem_cons.mp h).resolve_left fun h => heq h.symm

theorem opcodesMatch_zero (hl : ∀ o ∈ l, o ≠ 0 ∧ o ≠ minusOne) (h : opcode ∉ l) :
    opcodesMatch (l ++ [0]) opcode = some false := by
  induction l with
  | nil => rfl
  | cons o l ih =>
    have ho := (hl o mem_cons_self).1
    rw [cons_append, opcodesMatch, if_pos (by omega), if_neg fun heq => h (by rw [heq]; exact mem_cons_self)]
    exact ih (fun o ho => hl o (mem_cons_of_mem _ ho)) fun hm => h (mem_cons_of_mem _ hm)

end Opcodes

/-! ### Transactions -/

/-- A request of the policy protocol. -/
def Transaction.isPolicy (t : Transaction) : Bool :=
  match t.kind with
  | .connect _ | .close => false
  | .ack => decide (t.token = noToken)
  | _ => true

/-- The kinds whose `process` takes the transaction from the list itself. -/
def Kind.dequeues : Kind → Bool
  | .policy | .listAck | .version | .list => true
  | _ => false

/-- A transaction that waits for messages. -/
structure Open (t : Transaction) : Prop where
  notDone : t.done = false
  process : t.process = some t.kind
  opcodes : ∃ opcodes, t.opcodes = some opcodes ∧ Terminated opcodes
  token : t.kind ≠ .ack → t.token = noToken
  acks : t.kind = .ack → listed t = [pReply]
  dequeue : t.dequeue = true ∨ t.kind.dequeues = true
  initpeer : t.initpeer = true → t.kind ≠ .ack

theorem Open.progress {t : Transaction} (h : Open t) {opcodes : List ℕ} (hterm : Terminated opcodes)
    (hkind : t.kind ≠ .ack) : Open (t.progress opcodes) :=
  ⟨h.notDone, h.process, ⟨opcodes, rfl, hterm⟩, h.token, fun hk => absurd hk hkind, h.dequeue, h.initpeer⟩

/-! ### The list -/

/-- The part of a client that matters here. -/
structure Core where
  ops : List ℕ
  ts : List (Option Transaction)
  pending : Bool
  clients : List Bool
  finish : List ℕ
  handed : List Handed

def core (c : AnoubisClient) : Core :=
  ⟨c.ops, c.ts, c.policyPending, c.requests.map Request.client, c.finish, c.handed⟩

def Core.getT (c : Core) (id : ℕ) : Option Transaction := (c.ts[id]?).join

/-- A transaction goes on waiting. -/
def Core.waits (c : Core) (id : ℕ) (t' : Transaction) : Core := { c with ts := c.ts.set id (some t') }

/-- A transaction is done, and leaves the list; it may have been freed. -/
def Core.leave (c : Core) (id : ℕ) (t : Transaction) (t' : Option Transaction) (clients : List Bool) : Core :=
  ⟨c.ops.erase id, c.ts.set id t', if t.isPolicy then false else c.pending, clients, c.finish, c.handed⟩

/-- The end of a transaction is handled. -/
def Core.ended (c : Core) (id : ℕ) : Core := { c with finish := c.finish ++ [id] }

/-- A message goes to a transaction. -/
def Core.hand (c : Core) (hd : Handed) : Core := { c with handed := c.handed ++ [hd] }

/-- A message went to a transaction of its token that lists its opcode. -/
def HandedOk (h : Handed) : Prop := h.token = h.transaction.token ∧ h.opcode ∈ listed h.transaction

structure OpsOk (c : Core) : Prop where
  nodup : c.ops.Nodup
  isOpen : ∀ id ∈ c.ops, ∃ t, c.getT id = some t ∧ Open t
  pending : c.pending = true ↔ ∃ id ∈ c.ops, ∃ t, c.getT id = some t ∧ t.isPolicy = true
  single : ∀ id ∈ c.ops, ∀ id' ∈ c.ops, ∀ t t', c.getT id = some t → c.getT id' = some t' → t.isPolicy = true →
    t'.isPolicy = true → id = id'
  requests : ∀ id ∈ c.ops, ∀ t r, c.getT id = some t → t.kind = .csmulti r → c.clients[r]? = some true
  finish : c.finish.Nodup
  finished : ∀ id ∈ c.finish, id < c.ts.length ∧ id ∉ c.ops
  handed : ∀ h ∈ c.handed, HandedOk h

section Lists

variable {c c' : Core} {id : ℕ} {t t' : Transaction}

theorem Core.lt_of_getT (h : c.getT id = some t) : id < c.ts.length := by
  by_contra hlt
  rw [Core.getT, getElem?_eq_none (by omega)] at h
  cases h

theorem Core.getT_set (hts : c'.ts = c.ts.set id (some t')) (hid : id < c.ts.length)
    (j : ℕ) : c'.getT j = if j = id then some t' else c.getT j := by
  rw [Core.getT, Core.getT, hts, getElem?_set]
  by_cases hj : id = j
  · rw [if_pos hj, if_pos hid, if_pos hj.symm]
    rfl
  · rw [if_neg hj, if_neg fun h => hj h.symm]

theorem isPolicy_congr (hkind : t'.kind = t.kind) (htoken : t'.token = t.token) : t'.isPolicy = t.isPolicy := by
  rw [Transaction.isPolicy, Transaction.isPolicy, hkind, htoken]

/-- A new transaction at the head of the list. -/
theorem OpsOk.insert (h : OpsOk c) (ht : Open t) (hfree : t.isPolicy = true → c.pending = false)
    (hreq : ∀ r, t.kind = .csmulti r → c'.clients[r]? = some true)
    (hclients : t.isPolicy = true ∨ c'.clients = c.clients) (hops : c'.ops = c.ts.length :: c.ops)
    (hts : c'.ts = c.ts ++ [some t]) (hpending : c'.pending = (c.pending || t.isPolicy)) (hfinish : c'.finish = c.finish)
    (hhanded : c'.handed = c.handed) : OpsOk c' := by
  have hold : ∀ {j : ℕ}, j < c.ts.length → c'.getT j = c.getT j := by
    intro j hj
    rw [Core.getT, Core.getT, hts, getElem?_append_left hj]
  have hnew : c'.getT c.ts.length = some t := by
    rw [Core.getT, hts, getElem?_concat_length]
    rfl
  have hlt : ∀ j ∈ c.ops, j < c.ts.length := by
    intro j hj
    obtain ⟨u, hu, -⟩ := h.isOpen j hj
    exact Core.lt_of_getT hu
  have hnone : t.isPolicy = true → ∀ j ∈ c.ops, ∀ u, c.getT j = some u → u.isPolicy = false := by
    intro hp j hj u hu
    by_contra hpol
    have := h.pending.mpr ⟨j, hj, u, hu, by simpa using hpol⟩
    rw [hfree hp] at this
    cases this
  refine ⟨?_, ?_, ?_, ?_, ?_, hfinish ▸ h.finish, ?_, hhanded ▸ h.handed⟩
  · rw [hops]
    exact nodup_cons.mpr ⟨fun hm => Nat.lt_irrefl _ (hlt _ hm), h.nodup⟩
  · rw [hops]
    intro j hj
    rcases mem_cons.mp hj with rfl | hj
    · exact ⟨t, hnew, ht⟩
    · rw [hold (hlt j hj)]
      exact h.isOpen j hj
  · rw [hpending, hops, Bool.or_eq_true, h.pending]
    constructor
    · rintro (⟨j, hj, u, hu, hp⟩ | hp)
      · exact ⟨j, mem_cons_of_mem _ hj, u, by rwa [hold (hlt j hj)], hp⟩
      · exact ⟨_, mem_cons_self, t, hnew, hp⟩
    · rintro ⟨j, hj, u, hu, hp⟩
      rcases mem_cons.mp hj with rfl | hj
      · rw [hnew] at hu
        exact Or.inr (some.inj hu ▸ hp)
      · exact Or.inl ⟨j, hj, u, by rwa [← hold (hlt j hj)], hp⟩
  · rw [hops]
    intro j hj k hk u v hu hv hpu hpv
    rcases mem_cons.mp hj with rfl | hj
    · rcases mem_cons.mp hk with rfl | hk
      · rfl
      · rw [hnew] at hu
        rw [hold (hlt k hk)] at hv
        rw [hnone (some.inj hu ▸ hpu) k hk v hv] at hpv
        cases hpv
    · rw [hold (hlt j hj)] at hu
      rcases mem_cons.mp hk with rfl | hk
      · rw [hnew] at hv
        rw [hnone (some.inj hv ▸ hpv) j hj u hu] at hpu
        cases hpu
      · rw [hold (hlt k hk)] at hv
        exact h.single j hj k hk u v hu hv hpu hpv
  · rw [hops]
    intro j hj u r hu hk
    rcases mem_cons.mp hj with rfl | hj
    · rw [hnew] at hu
      exact hreq r (some.inj hu ▸ hk)
    · rw [hold (hlt j hj)] at hu
      rcases hclients with hp | heq
      · have := hnone hp j hj u hu
        rw [Transaction.isPolicy, hk] at this
        cases this
      · rw [heq]
        exact h.requests j hj u r hu hk
  · rw [hfinish, hts, hops, length_append]
    intro j hj
    obtain ⟨hj', hnot⟩ := h.finished j hj
    refine ⟨by omega, fun hm => ?_⟩
    rcases mem_cons.mp hm with rfl | hm
    · exact Nat.lt_irrefl _ hj'
    · exact hnot hm

/-- A transaction goes on waiting. -/
theorem OpsOk.waits (h : OpsOk c) (hget : c.getT id = some t) (ht : Open t') (hkind : t'.kind = t.kind)
    (htoken : t'.token = t.token) : OpsOk (c.waits id t') := by
  have hset := Core.getT_set (show (c.waits id t').ts = c.ts.set id (some t') from rfl) (Core.lt_of_getT hget)
  have hpol : ∀ j u, (c.waits id t').getT j = some u →
      ∃ v, c.getT j = some v ∧ u.isPolicy = v.isPolicy ∧ u.kind = v.kind := by
    intro j u hu
    rw [hset] at hu
    split at hu
    · rename_i hj
      rw [hj, ← some.inj hu]
      exact ⟨t, hget, isPolicy_congr hkind htoken, hkind⟩
    · exact ⟨u, hu, rfl, rfl⟩
  have hpol' : ∀ j v, c.getT j = some v → ∃ u, (c.waits id t').getT j = some u ∧ u.isPolicy = v.isPolicy := by
    intro j v hv
    rw [hset]
    split
    · rename_i hj
      rw [hj, hget] at hv
      exact ⟨t', rfl, some.inj hv ▸ isPolicy_congr hkind htoken⟩
    · exact ⟨v, hv, rfl⟩
  refine ⟨h.nodup, ?_, ?_, ?_, ?_, h.finish, ?_, h.handed⟩
  · intro j hj
    rw [hset]
    split
    · exact ⟨t', rfl, ht⟩
    · exact h.isOpen j hj
  · refine h.pending.trans ⟨?_, ?_⟩
    · rintro ⟨j, hj, v, hv, hp⟩
      obtain ⟨u, hu, heq⟩ := hpol' j v hv
      exact ⟨j, hj, u, hu, heq.trans hp⟩
    · rintro ⟨j, hj, u, hu, hp⟩
      obtain ⟨v, hv, heq, -⟩ := hpol j u hu
      exact ⟨j, hj, v, hv, heq ▸ hp⟩
  · intro j hj k hk u v hu hv hpu hpv
    obtain ⟨u', hu', heq, -⟩ := hpol j u hu
    obtain ⟨v', hv', heq', -⟩ := hpol k v hv
    exact h.single j hj k hk u' v' hu' hv' (heq ▸ hpu) (heq' ▸ hpv)
  · intro j hj u r hu hk
    obtain ⟨v, hv, -, heq⟩ := hpol j u hu
    exact h.requests j hj v r hv (heq ▸ hk)
  · intro j hj
    rw [Core.waits, length_set]
    exact h.finished j hj

/-- A transaction is done, and leaves the list. -/
theorem OpsOk.leave (h : OpsOk c) (hid : id ∈ c.ops) (hget : c.getT id = some t) (t' : Option Transaction)
    {clients : List Bool} (hclients : t.isPolicy = true ∨ clients = c.clients) : OpsOk (c.leave id t t' clients) := by
  have hmem : ∀ {j : ℕ}, j ∈ c.ops.erase id → j ∈ c.ops ∧ j ≠ id := fun hj =>
    ⟨mem_of_mem_erase hj, fun heq => List.Nodup.not_mem_erase h.nodup (heq ▸ hj)⟩
  generalize hc' : c.leave id t t' clients = c'
  have hold : ∀ {j : ℕ}, j ≠ id → c'.getT j = c.getT j := by
    intro j hj
    rw [← hc', Core.leave, Core.getT, Core.getT, getElem?_set, if_neg fun h => hj h.symm]
  have hnone : t.isPolicy = true → ∀ j ∈ c.ops.erase id, ∀ u, c.getT j = some u → u.isPolicy = false := by
    intro hp j hj u hu
    by_contra hpol
    exact (hmem hj).2 (h.single j (hmem hj).1 id hid u t hu hget (by simpa using hpol) hp)
  have hops : c'.ops = c.ops.erase id := by rw [← hc']; rfl
  refine ⟨?_, ?_, ?_, ?_, ?_, ?_, ?_, ?_⟩
  · rw [hops]
    exact h.nodup.erase id
  · rw [hops]
    intro j hj
    rw [hold (hmem hj).2]
    exact h.isOpen j (hmem hj).1
  · have hpending : c'.pending = if t.isPolicy then false else c.pending := by rw [← hc']; rfl
    rw [hpending, hops]
    by_cases hp : t.isPolicy = true
    · rw [if_pos hp]
      refine iff_of_false (by simp) ?_
      rintro ⟨j, hj, u, hu, hpu⟩
      rw [hold (hmem hj).2] at hu
      rw [hnone hp j hj u hu] at hpu
      cases hpu
    · rw [if_neg hp, h.pending]
      constructor
      · rintro ⟨j, hj, u, hu, hpu⟩
        have hne : j ≠ id := by
          rintro rfl
          rw [hget] at hu
          exact hp (some.inj hu ▸ hpu)
        exact ⟨j, (mem_erase_of_ne hne).mpr hj, u, by rwa [hold hne], hpu⟩
      · rintro ⟨j, hj, u, hu, hpu⟩
        exact ⟨j, (hmem hj).1, u, by rwa [← hold (hmem hj).2], hpu⟩
  · rw [hops]
    intro j hj k hk u v hu hv hpu hpv
    rw [hold (hmem hj).2] at hu
    rw [hold (hmem hk).2] at hv
    exact h.single j (hmem hj).1 k (hmem hk).1 u v hu hv hpu hpv
  · rw [hops]
    intro j hj u r hu hk
    rw [hold (hmem hj).2] at hu
    rcases hclients with hp | heq
    · have := hnone hp j hj u hu
      rw [Transaction.isPolicy, hk] at this
      cases this
    · rw [← hc', Core.leave, heq]
      exact h.requests j (hmem hj).1 u r hu hk
  · rw [← hc']
    exact h.finish
  · rw [← hc', Core.leave]
    dsimp only
    rw [length_set]
    intro j hj
    exact ⟨(h.finished j hj).1, fun hm => (h.finished j hj).2 (hmem hm).1⟩
  · rw [← hc']
    exact h.handed

/-- A transaction that left the list may change, or be freed. -/
theorem OpsOk.elsewhere (h : OpsOk c) (hid : id ∉ c.ops) (t : Option Transaction) :
    OpsOk { c with ts := c.ts.set id t } := by
  have hold : ∀ j ∈ c.ops, ({ c with ts := c.ts.set id t } : Core).getT j = c.getT j := by
    intro j hj
    rw [Core.getT, Core.getT, getElem?_set, if_neg (by rintro rfl; exact hid hj)]
  refine ⟨h.nodup, ?_, h.pending.trans ⟨?_, ?_⟩, ?_, ?_, h.finish, ?_, h.handed⟩
  · intro j hj
    rw [hold j hj]
    exact h.isOpen j hj
  · rintro ⟨j, hj, u, hu, hp⟩
    exact ⟨j, hj, u, (hold j hj).trans hu, hp⟩
  · rintro ⟨j, hj, u, hu, hp⟩
    exact ⟨j, hj, u, (hold j hj).symm.trans hu, hp⟩
  · intro j hj k hk u v hu hv hpu hpv
    exact h.single j hj k hk u v ((hold j hj).symm.trans hu) ((hold k hk).symm.trans hv) hpu hpv
  · intro j hj u r hu hk
    exact h.requests j hj u r ((hold j hj).symm.trans hu) hk
  · dsimp only
    rw [length_set]
    exact h.finished

theorem OpsOk.ended (h : OpsOk c) (hlt : id < c.ts.length) (hops : id ∉ c.ops) (hnew : id ∉ c.finish) :
    OpsOk (c.ended id) where
  nodup := h.nodup
  isOpen := h.isOpen
  pending := h.pending
  single := h.single
  requests := h.requests
  finish := nodup_append.mpr ⟨h.finish, by simp, fun a ha b hb hab => hnew (by
    rw [← mem_singleton.mp hb, ← hab]
    exact ha)⟩
  finished j hj := by
    rcases mem_append.mp hj with hj | hj
    · exact h.finished j hj
    · rw [mem_singleton.mp hj]
      exact ⟨hlt, hops⟩
  handed := h.handed

theorem OpsOk.hand (h : OpsOk c) {hd : Handed} (hh : HandedOk hd) : OpsOk (c.hand hd) where
  nodup := h.nodup
  isOpen := h.isOpen
  pending := h.pending
  single := h.single
  requests := h.requests
  finish := h.finish
  finished := h.finished
  handed x hx := by
    rcases mem_append.mp hx with hx | hx
    · exact h.handed x hx
    · rw [mem_singleton.mp hx]
      exact hh

end Lists

/-! ### What leaves the list alone -/

section Quiet

variable {env : Env} {c : AnoubisClient} {m : Bytes}

theorem core_clientSend (o : Out) : core (clientSend env c o).2 = core c := by
  rw [clientSend]
  split <;> rfl

theorem core_noteClose (m : Bytes) : core (c.noteClose m) = core c := by
  rw [AnoubisClient.noteClose]
  split
  · rfl
  · split <;> rfl

theorem core_clientVerify : core (clientVerify env c m).2 = core c := by
  rw [clientVerify]
  split
  · exact core_noteClose m
  · rfl

theorem core_verifyReply (origop : ℕ) : core (verifyReply env c origop m).2 = core c := by
  rw [verifyReply]
  split
  · exact core_clientVerify
  · split <;> exact core_clientVerify

theorem core_verifyHello : core (verifyHello env c m).2 = core c := by
  have h : core (clientVerify env c m).2 = core c := core_clientVerify
  rw [verifyHello]
  dsimp only
  split
  · exact h
  split
  · exact h
  split
  · exact h
  split
  · exact h
  · split
    · exact h
    · split <;> exact h

theorem core_verifyAuthreply : core (verifyAuthreply env c m).2 = core c := by
  have h : core (clientVerify env c m).2 = core c := core_clientVerify
  rw [verifyAuthreply]
  dsimp only
  split
  · exact h
  split
  · exact h
  split <;> exact h

theorem core_verifyOptack : core (verifyOptack env c m).2 = core c := by
  have h : core (clientVerify env c m).2 = core c := core_clientVerify
  rw [verifyOptack]
  dsimp only
  split
  · exact h
  split <;> exact h

theorem core_sendNext (o : Out) (next : Next) : core (sendNext env c o next).2 = core c := core_clientSend o

theorem core_sendAuthdata : core (sendAuthdata env c m).2 = core c := by
  rw [sendAuthdata]
  generalize (if c.authCallback then env.auth m else (0, none)) = r
  split
  · rfl
  · split
    · rfl
    · exact core_sendNext _ _

variable (env c m) in
/-- The arrays of a connect end with zero. -/
theorem connectStage_spec (proto : Protos) (stage : ℤ) : core (connectStage env c proto stage m).2 = core c ∧
    ∀ opcodes, (connectStage env c proto stage m).1 = .ok (.progress opcodes) → Terminated opcodes := by
  have hterm : ∀ (c : AnoubisClient) (o : Out) (l opcodes : List ℕ), (∀ x ∈ l, x ≠ 0 ∧ x ≠ minusOne) →
      (sendNext env c o (.progress (l ++ [0]))).1 = .ok (.progress opcodes) → Terminated opcodes := by
    intro c o l opcodes hl h
    rw [sendNext] at h
    dsimp only at h
    split at h
    · cases h
      exact ⟨l, 0, rfl, .inl rfl, hl⟩
    · cases h
  rw [connectStage]
  split
  · dsimp only
    split
    · exact ⟨core_verifyHello, fun _ h => by cases h⟩
    · exact ⟨(core_sendNext _ _).trans core_verifyHello, fun _ h => hterm _ _ [pReply] _ (by decide) h⟩
  split
  · dsimp only
    split
    · exact ⟨core_verifyReply _, fun _ h => by cases h⟩
    · exact ⟨(core_sendNext _ _).trans (core_verifyReply _), fun _ h => hterm _ _ [pReply] _ (by decide) h⟩
  split
  · dsimp only
    split
    · exact ⟨core_verifyReply _, fun _ h => by cases h⟩
    · exact ⟨(core_sendNext _ _).trans (core_verifyReply _),
        fun _ h => hterm _ _ [cAuthreply, Connection.cAuthdata] _ (by decide) h⟩
  split
  · split
    · refine ⟨core_sendAuthdata, fun opcodes h => ?_⟩
      rw [sendAuthdata] at h
      generalize (if c.authCallback then env.auth m else (0, none)) = r at h
      split at h
      · cases h
      · split at h
        · cases h
        · rw [sendNext] at h
          dsimp only at h
          split at h <;> cases h
    · dsimp only
      split
      · exact ⟨core_verifyAuthreply, fun _ h => by cases h⟩
      · exact ⟨(core_sendNext _ _).trans core_verifyAuthreply, fun _ h => hterm _ _ [cOptack] _ (by decide) h⟩
  split
  · dsimp only
    split
    · exact ⟨core_verifyOptack, fun _ h => by cases h⟩
    · split
      · exact ⟨core_verifyOptack, fun _ h => by cases h⟩
      · exact ⟨(core_sendNext _ _).trans core_verifyOptack, fun _ h => hterm _ _ [pReply] _ (by decide) h⟩
  split
  · dsimp only
    split
    · exact ⟨core_verifyReply _, fun _ h => by cases h⟩
    · exact ⟨core_verifyReply (c := c) cProtosel, fun _ h => by cases h⟩
  · exact ⟨rfl, fun _ h => by cases h⟩

theorem core_closeStage : core (closeStage env c m).2 = core c := by
  have h : core (clientVerify env c m).2 = core c := core_clientVerify
  rw [closeStage]
  dsimp only
  split
  · exact h
  split
  · exact h
  split
  · exact h
  split
  · exact h
  split
  · split
    · exact (core_clientSend _).trans h
    · exact (core_clientSend _).trans h
  · exact h

theorem core_sendAll (ms : List Out) : core (sendAll env c ms).2 = core c := by
  induction ms generalizing c with
  | nil => rfl
  | cons o ms ih =>
    rw [sendAll]
    split
    · exact ih.trans (core_clientSend o)
    · exact core_clientSend o

end Quiet

/-! ### Matching -/

/-- The transaction that a message is for: the first with its token that lists its opcode. -/
def waiting (c : Core) (token : Bytes) (opcode : ℕ) : List ℕ → Option (ℕ × Transaction)
  | [] => none
  | id :: ids =>
    match c.getT id with
    | none => none
    | some t => if t.token = token ∧ opcode ∈ listed t then some (id, t) else waiting c token opcode ids

/-- Every transaction of the token up to the one that the message is for lists the opcode, unless its array ends
    with zero. -/
def Clear (c : Core) (token : Bytes) (opcode : ℕ) : List ℕ → Prop
  | [] => True
  | id :: ids => ∀ t, c.getT id = some t → (t.token = token → EndsMinusOne t → opcode ∈ listed t) ∧
      (¬ (t.token = token ∧ opcode ∈ listed t) → Clear c token opcode ids)

section Matching

variable {c : AnoubisClient} {token : Bytes} {self : Bool} {opcode : ℕ} {t : Transaction}

theorem transactionMatch_eq (ht : Open t) (hself : token ≠ noToken → self = true)
    (hclear : t.token = token → EndsMinusOne t → opcode ∈ listed t) :
    transactionMatch t token self opcode = some (decide (t.token = token ∧ opcode ∈ listed t)) := by
  obtain ⟨opcodes, hops, l, x, rfl, hx, hl⟩ := ht.opcodes
  have hlisted : listed t = l := by
    rw [listed, hops]
    exact takeWhile_terminated hx hl
  rw [transactionMatch, hops]
  dsimp only
  by_cases htoken : t.token = token
  · rw [if_neg (not_not.mpr htoken), if_neg, hlisted]
    · by_cases hin : opcode ∈ l
      · rw [opcodesMatch_listed hl hin, decide_eq_true ⟨htoken, hin⟩]
      · rw [decide_eq_false fun h => hin h.2]
        rcases hx with rfl | rfl
        · exact opcodesMatch_zero hl hin
        · refine absurd (hclear htoken ?_) (hlisted ▸ hin)
          rw [EndsMinusOne, hops]
          simp
    · rintro ⟨hne, ⟨-, hs⟩ | ⟨hp, -⟩⟩
      · rw [hself hne] at hs
        cases hs
      · exact hne (htoken ▸ ht.token (ht.initpeer hp))
  · rw [if_pos htoken, decide_eq_false fun h => htoken h.1]

variable {ids : List ℕ}

theorem findMatch_eq (hopen : ∀ id ∈ ids, ∃ t, (core c).getT id = some t ∧ Open t)
    (hself : token ≠ noToken → self = true) (hclear : Clear (core c) token opcode ids) :
    findMatch c token self opcode ids = .ok (waiting (core c) token opcode ids) := by
  induction ids with
  | nil => rfl
  | cons id ids ih =>
    obtain ⟨t, hget, ht⟩ := hopen id mem_cons_self
    obtain ⟨hmatch, hrest⟩ := hclear t hget
    have hgetT : c.getT id = some t := hget
    rw [findMatch, hgetT, waiting, hget]
    dsimp only
    rw [transactionMatch_eq ht hself hmatch]
    by_cases hw : t.token = token ∧ opcode ∈ listed t
    · rw [if_pos hw, decide_eq_true hw]
    · rw [if_neg hw, decide_eq_false hw]
      exact ih (fun j hj => hopen j (mem_cons_of_mem _ hj)) (hrest hw)

theorem waiting_spec {c : Core} {x : ℕ × Transaction} (h : waiting c token opcode ids = some x) :
    x.1 ∈ ids ∧ c.getT x.1 = some x.2 ∧ x.2.token = token ∧ opcode ∈ listed x.2 := by
  induction ids with
  | nil => cases h
  | cons id ids ih =>
    rw [waiting] at h
    cases hget : c.getT id with
    | none =>
      rw [hget] at h
      cases h
    | some t =>
      rw [hget] at h
      dsimp only at h
      split at h
      · rename_i hw
        cases h
        exact ⟨mem_cons_self, hget, hw⟩
      · obtain ⟨hmem, hrest⟩ := ih h
        exact ⟨mem_cons_of_mem _ hmem, hrest⟩

end Matching

/-! ### What a transaction does with a message -/

/-- What `process` does: the transaction waits, or it is done. It may have left the list already. -/
inductive Stepped (c : Core) (id : ℕ) (t : Transaction) : Core → Prop
  | waits (t' : Transaction) (isOpen : Open t') (kind : t'.kind = t.kind) (token : t'.token = t.token) :
      Stepped c id t (c.waits id t')
  | done (t' : Transaction) (done : t'.done = true) (kind : t'.kind = t.kind) (dequeue : t'.dequeue = t.dequeue)
      (ops : List ℕ) (left : ops = c.ops.erase id ∨ ops = c.ops ∧ t.dequeue = true) (clients : List Bool)
      (same : t.isPolicy = true ∨ clients = c.clients) :
      Stepped c id t { c.leave id t (some t') clients with ops := ops }

/-- What the whole processing does. -/
inductive Processed (c : Core) (id : ℕ) (t : Transaction) : Core → Prop
  | waits (t' : Transaction) (isOpen : Open t') (kind : t'.kind = t.kind) (token : t'.token = t.token) :
      Processed c id t (c.waits id t')
  | done (t' : Transaction) (done : t'.done = true) (clients : List Bool)
      (same : t.isPolicy = true ∨ clients = c.clients) :
      Processed c id t ((c.leave id t (some t') clients).ended id)

section Processing

variable {env : Env} {c c₂ : AnoubisClient} {id : ℕ} {t : Transaction} {m : Bytes}

theorem core_setT (c : AnoubisClient) (id : ℕ) (t : Transaction) : core (c.setT id t) = (core c).waits id t := rfl

theorem Core.waits_self {c : Core} (h : c.getT id = some t) : c.waits id t = c := by
  have hts : c.ts.set id (some t) = c.ts := by
    apply ext_getElem?
    intro j
    rw [getElem?_set]
    by_cases hj : id = j
    · have hlt := Core.lt_of_getT h
      rw [Core.getT, getElem?_eq_getElem hlt] at h
      rw [if_pos hj, if_pos hlt, ← hj, getElem?_eq_getElem hlt]
      exact congrArg some h.symm
    · rw [if_neg hj]
  rw [Core.waits, hts]

theorem Processed.opsOk {c c' : Core} (h : OpsOk c) (hid : id ∈ c.ops) (hget : c.getT id = some t)
    (hp : Processed c id t c') : OpsOk c' := by
  cases hp with
  | waits t' isOpen kind token => exact h.waits hget isOpen kind token
  | done t' done clients same =>
    refine (h.leave hid hget (some t') same).ended ?_ (List.Nodup.not_mem_erase h.nodup) fun hf => ?_
    · show id < (c.ts.set id (some t')).length
      rw [length_set]
      exact Core.lt_of_getT hget
    · exact (h.finished id hf).2 hid

theorem Open.flags {t' : Transaction} (h : Open t) (hdone : t'.done = t.done) (hprocess : t'.process = t.process)
    (hopcodes : t'.opcodes = t.opcodes) (hkind : t'.kind = t.kind) (htoken : t'.token = t.token)
    (hdequeue : t'.dequeue = t.dequeue) (hpeer : t'.initpeer = t.initpeer) : Open t' := by
  refine ⟨hdone ▸ h.notDone, ?_, hopcodes ▸ h.opcodes, ?_, ?_, ?_, ?_⟩
  · rw [hprocess, hkind]
    exact h.process
  · rw [hkind, htoken]
    exact h.token
  · rw [hkind, listed, hopcodes]
    exact h.acks
  · rw [hdequeue, hkind]
    exact h.dequeue
  · rw [hpeer, hkind]
    exact h.initpeer

variable {c₀ : Core} {ops : List ℕ} {clients : List Bool}

/-- The request of a csmulti transaction takes over its message. -/
theorem finishRequest_spec {t' : Transaction} (hc : core c₂ = { c₀.leave id t (some t') clients with ops := ops })
    (hsame : t.isPolicy = true ∨ clients = c₀.clients) {t'' : Transaction} (hdone : t''.done = true)
    (hkind : t''.kind = t.kind) :
    ∃ t₃ clients', t₃.done = true ∧ (t.isPolicy = true ∨ clients' = c₀.clients) ∧
      core (finishRequest c₂ id t'' m) = { c₀.leave id t (some t₃) clients' with ops := ops } := by
  have hset : ∀ (u : Transaction) (clients' : List Bool), ({ (core c₂).waits id u with clients := clients' } : Core) =
      { c₀.leave id t (some u) clients' with ops := ops } := by
    intro u clients'
    rw [hc, Core.waits, Core.leave, Core.leave]
    dsimp only
    rw [List.set_set]
  rw [finishRequest]
  split
  · rename_i r hr
    have hpol : t.isPolicy = true := by rw [Transaction.isPolicy, ← hkind, hr]
    refine ⟨if t''.result = 0 then { t'' with msg := [] } else t'', _, ?_, .inl hpol, hset _ _⟩
    split <;> exact hdone
  · refine ⟨t'', clients, hdone, hsame, ?_⟩
    rw [core_setT, ← hset, hc]
    rfl

/-- Behind `process`, the message is kept. -/
theorem transactionEnd_waits (hlt : id < c₀.ts.length) {t' : Transaction} (hc : core c₂ = c₀.waits id t')
    (hdone : t'.done = false) : ∃ c₃, transactionEnd c₂ id m = .ok c₃ ∧
      c₃ = c₂.setT id { t' with msg := if t'.wantall then t'.msg ++ [m] else t'.msg } ∧
      core c₃ = c₀.waits id { t' with msg := if t'.wantall then t'.msg ++ [m] else t'.msg } := by
  have hget : c₂.getT id = some t' := by
    have := Core.getT_set (show (c₀.waits id t').ts = c₀.ts.set id (some t') from rfl) hlt id
    rw [if_pos rfl, ← hc] at this
    exact this
  rw [transactionEnd, hget]
  refine ⟨_, if_pos hdone, rfl, ?_⟩
  rw [core_setT, hc, Core.waits, Core.waits, Core.waits, List.set_set]

/-- The end of the transaction is handled. -/
theorem transactionEnd_done (hnodup : c₀.ops.Nodup) (hlt : id < c₀.ts.length) {t' : Transaction}
    (hc : core c₂ = { c₀.leave id t (some t') clients with ops := ops }) (done : t'.done = true)
    (kind : t'.kind = t.kind) (dequeue : t'.dequeue = t.dequeue)
    (left : ops = c₀.ops.erase id ∨ ops = c₀.ops ∧ t.dequeue = true)
    (same : t.isPolicy = true ∨ clients = c₀.clients) :
    ∃ c₃ t₃ clients', transactionEnd c₂ id m = .ok c₃ ∧ t₃.done = true ∧
      (t.isPolicy = true ∨ clients' = c₀.clients) ∧ core c₃ = (c₀.leave id t (some t₃) clients').ended id := by
  have hget : c₂.getT id = some t' := by
    have := Core.getT_set (show ({ c₀.leave id t (some t') clients with ops := ops } : Core).ts =
      c₀.ts.set id (some t') from rfl) hlt id
    rw [if_pos rfl, ← hc] at this
    exact this
  obtain ⟨t₃, clients', hdone₃, hsame, hcore⟩ := finishRequest_spec hc same (show ({ t' with
    msg := if t'.wantmessage then [m] else if t'.wantall then t'.msg ++ [m] else t'.msg } : Transaction).done = true
    from done) kind (m := m)
  rw [transactionEnd, hget]
  refine ⟨_, t₃, clients', if_neg (by simp [done]), hdone₃, hsame, ?_⟩
  rw [transactionDone]
  dsimp only
  generalize finishRequest c₂ id _ m = r at hcore ⊢
  have hops : (if t'.dequeue then r.remove id else r).ops = c₀.ops.erase id := by
    have hr : r.ops = ops := congrArg Core.ops hcore
    rcases left with rfl | ⟨rfl, hd⟩
    · split
      · rw [AnoubisClient.remove, hr]
        exact erase_of_not_mem (List.Nodup.not_mem_erase hnodup)
      · exact hr
    · rw [if_pos (dequeue.trans hd), AnoubisClient.remove, hr]
  have hrest : core { (if t'.dequeue then r.remove id else r) with finish := r.finish ++ [id] } =
      { (core r).ended id with ops := (if t'.dequeue then r.remove id else r).ops } := by
    split <;> rfl
  rw [hrest, hops, hcore]
  rfl

theorem transactionEnd_spec (hnodup : c₀.ops.Nodup) (hlt : id < c₀.ts.length) (h : Stepped c₀ id t (core c₂)) :
    ∃ c₃, transactionEnd c₂ id m = .ok c₃ ∧ Processed c₀ id t (core c₃) := by
  generalize hc : core c₂ = k at h
  cases h with
  | waits t' isOpen kind token =>
    obtain ⟨c₃, hend, -, hcore⟩ := transactionEnd_waits (m := m) hlt hc isOpen.notDone
    rw [hend]
    refine ⟨c₃, rfl, ?_⟩
    rw [hcore]
    exact .waits _ (isOpen.flags rfl rfl rfl rfl rfl rfl rfl) kind token
  | done t' done kind dequeue ops left clients same =>
    obtain ⟨c₃, t₃, clients', hend, hdone, hsame, hcore⟩ :=
      transactionEnd_done (m := m) hnodup hlt hc done kind dequeue left same
    rw [hend]
    refine ⟨c₃, rfl, ?_⟩
    rw [hcore]
    exact .done t₃ hdone clients' hsame

end Processing

end Anoubis.Client

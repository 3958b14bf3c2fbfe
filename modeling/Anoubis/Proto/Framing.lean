import Anoubis.Proto.CommRuns

/-! The messages of one request.

    A client may split a request: the messages that reach the dispatcher under one token should be

        START -- data -- data -- … -- END        (START and END may be the same message)

    REQUEST_DATAEND remembers the end only if the first message carried it, and a message without START
    on an idle channel opens a request. The framing holds in all runs in which no client makes use of
    either. -/

namespace Anoubis.Proto.PolicyComm

open Anoubis.Lib List

/-- The flags of the messages that went to the dispatcher under a token. -/
def messages (l : List Event) (t : ℕ) : List ℕ :=
  l.filterMap (fun x => match x with
    | .dispatch t' _ _ flags _ => if t' = t then some flags else none
    | _ => none)

/-- START on the first message only, END on the last one only. -/
def Framed (l : List ℕ) : Prop :=
  ∀ pre f post, l = pre ++ f :: post → (flagStart f = true ↔ pre = []) ∧ (flagEnd f = true → post = [])

/-- What a client library does: it does not continue a request that is not open, and it does not
    continue one that it has ended. The callers of `anoubis_policy_comm_addrequest` in `session.c` pass
    both flags. -/
def Regular (c : Comm) : Op → Prop
  | .addrequest _ flags _ _ => flagEnd flags = true
  | .process m _ chan => m.long = true → m.type = pRequest → flagStart m.flags = false →
    ∃ r ∈ c.req, r.chan = chan ∧
      (r.requestDataend = true ∨ ∀ f ∈ messages c.trace r.token, flagEnd f = false)
  | .answer _ _ _ _ => True
  | .destroy _ => True

theorem messages_concat_other {l : List Event} {x : Event} (t : ℕ)
    (h : ∀ t' uid chan flags payload, x ≠ .dispatch t' uid chan flags payload) :
    messages (l ++ [x]) t = messages l t := by
  rw [messages, filterMap_append, messages]
  cases x with
  | dispatch t' uid chan flags payload => exact absurd rfl (h t' uid chan flags payload)
  | _ => exact append_nil _

theorem messages_concat {l : List Event} (t t' uid chan flags : ℕ) (payload : List UInt8) :
    messages (l ++ [.dispatch t' uid chan flags payload]) t =
      if t' = t then messages l t ++ [flags] else messages l t := by
  rw [messages, filterMap_append]
  by_cases ht : t' = t
  · simp [ht, messages]
  · simp [ht, messages]

theorem framed_singleton {f : ℕ} (h : flagStart f = true) : Framed [f] := by
  intro pre g post hl
  rcases concat_eq_split (l := []) hl with ⟨rfl, rfl, rfl⟩ | ⟨post', -, hl⟩
  · exact ⟨iff_of_true h rfl, fun _ => rfl⟩
  · simp at hl

theorem framed_concat {l : List ℕ} {f : ℕ} (h : Framed l) (hne : l ≠ []) (hstart : flagStart f = false)
    (hend : ∀ g ∈ l, flagEnd g = false) : Framed (l ++ [f]) := by
  intro pre g post hl
  rcases concat_eq_split hl with ⟨rfl, rfl, rfl⟩ | ⟨post', rfl, rfl⟩
  · exact ⟨iff_of_false (by simp [hstart]) hne, fun _ => rfl⟩
  · refine ⟨(h pre g post' rfl).1, fun he => ?_⟩
    rw [hend g (mem_append_right _ mem_cons_self)] at he
    cases he

structure Frames (c : Comm) : Prop where
  table : Table c
  framed : ∀ t, Framed (messages c.trace t)
  old : ∀ t, messages c.trace t ≠ [] → t ≤ c.nexttoken
  begun : ∀ r ∈ c.req, r.requestDataend = false → messages c.trace r.token ≠ []

theorem frames_create : Frames Comm.create where
  table := table_create
  framed := by
    intro t pre f post h
    simp [messages, Comm.create] at h
  old := fun t h => absurd rfl h
  begun := nofun

variable {c : Comm}

/-- A step that hands no message on and opens no request that could be continued. -/
theorem frames_quiet (h : Frames c) {op : Op} (hn : c.nexttoken ≤ (step c op).nexttoken)
    (hm : ∀ t, messages (step c op).trace t = messages c.trace t)
    (hb : ∀ r ∈ (step c op).req, r.requestDataend = false →
      ∃ r₀ ∈ c.req, r₀.token = r.token ∧ r₀.requestDataend = false) : Frames (step c op) where
  table := table_step c op h.table
  framed := fun t => hm t ▸ h.framed t
  old := fun t ht => (h.old t (hm t ▸ ht)).trans hn
  begun := by
    intro r hr hd
    obtain ⟨r₀, hr₀, ht, hd₀⟩ := hb r hr hd
    rw [hm, ← ht]
    exact h.begun r₀ hr₀ hd₀

theorem frames_addrequest (h : Frames c) (chan : ℕ) {flags : ℕ} (cb : Callback) (d : Bool)
    (hend : flagEnd flags = true) : Frames (step c (.addrequest chan flags cb d)) := by
  cases ha : addrequest c chan flags cb d with
  | error e =>
    have hs : step c (.addrequest chan flags cb d) = c := by rw [step, ha]
    rw [hs]
    exact h
  | ok r =>
    have hs : step c (.addrequest chan flags cb d) = r.2 := by rw [step, ha]
    rw [addrequest] at ha
    split at ha
    · split at ha
      · cases ha
      · split at ha
        · cases ha
        · cases ha
          rw [hs]
          exact h
    · cases ha
      refine frames_quiet h ?_ (fun t => ?_) ?_ <;> rw [hs]
      · exact Nat.le_succ _
      · exact messages_concat_other t (by simp)
      · intro r hr hd
        rcases mem_cons.mp hr with rfl | hr
        · rw [hend] at hd
          cases hd
        · exact ⟨r, hr, rfl, hd⟩

theorem frames_answer (h : Frames c) (token error : ℕ) (data : List UInt8) (fin : Bool) :
    Frames (step c (.answer token error data fin)) := by
  cases ha : answer c token error data fin with
  | error e =>
    have hs : step c (.answer token error data fin) = c := by rw [step, ha]
    rw [hs]
    exact h
  | ok c' =>
    have hs : step c (.answer token error data fin) = c' := by rw [step, ha]
    rw [answer] at ha
    split at ha
    · cases ha
    · split at ha
      · cases ha
      · cases ha
        refine frames_quiet h ?_ (fun t => ?_) ?_ <;> rw [hs]
        · exact le_rfl
        · exact messages_concat_other t (by simp)
        · intro r hr hd
          change r ∈ (if fin then _ else _) at hr
          split at hr
          · exact ⟨r, mem_of_mem_eraseP hr, rfl, hd⟩
          · obtain ⟨r₀, hr₀, rfl⟩ := mem_map.mp hr
            refine ⟨r₀, hr₀, ?_⟩
            by_cases he : (r₀.token == token) = true
            · rw [if_pos he] at hd ⊢
              exact ⟨rfl, hd⟩
            · rw [if_neg he] at hd ⊢
              exact ⟨rfl, hd⟩

theorem frames_destroy (h : Frames c) (chan : ℕ) : Frames (step c (.destroy chan)) := by
  have hs : step c (.destroy chan) = destroy c chan := rfl
  have hview : (destroy c chan).nexttoken = c.nexttoken ∧
      (∀ t, messages (destroy c chan).trace t = messages c.trace t) ∧
      ∀ r ∈ (destroy c chan).req, r ∈ c.req := by
    rw [destroy]
    split
    · exact ⟨rfl, fun t => messages_concat_other t (by simp), fun r hr => hr⟩
    · simp only
      split
      · refine ⟨rfl, fun t => ?_, fun r hr => mem_of_mem_eraseP hr⟩
        rw [Comm.emit, messages_concat_other t (by simp)]
        exact messages_concat_other t (by simp)
      · exact ⟨rfl, fun t => messages_concat_other t (by simp), fun r hr => mem_of_mem_eraseP hr⟩
  obtain ⟨hn, hm, hr⟩ := hview
  refine frames_quiet h ?_ (fun t => ?_) fun r hr' hd => ?_
  · rw [hs, hn]
  · rw [hs, hm]
  · exact ⟨r, hr r hr', rfl, hd⟩

/-- A message goes to the dispatcher. -/
theorem frames_process (h : Frames c) (m : Msg) (uid chan : ℕ) (hreg : Regular c (.process m uid chan)) :
    Frames (step c (.process m uid chan)) := by
  cases hp : processBegin c m uid chan with
  | error e =>
    have hs : step c (.process m uid chan) = c := by rw [step, hp]
    rw [hs]
    exact h
  | ok c' =>
    have hs : step c (.process m uid chan) = c' := by rw [step, hp]
    have htable : Table c' := hs ▸ table_step c (.process m uid chan) h.table
    have hvalid : m.long = true ∧ m.type = pRequest := by
      rw [processBegin] at hp
      split at hp
      · cases hp
      · split at hp
        · cases hp
        next hlong htype => exact ⟨by simpa using hlong, not_not.mp htype⟩
    obtain ⟨token, c₁, ha, rfl⟩ := processBegin_eq_ok hp
    rw [hs]
    rw [addrequest] at ha
    cases hf : c.req.find? (fun r => r.chan == chan) with
    | none =>
      rw [hf] at ha
      cases ha
      -- nobody may continue a request that is not open
      have hstart : flagStart m.flags = true := by
        by_contra hno
        obtain ⟨r, hr, hc, -⟩ := hreg hvalid.1 hvalid.2 (by simpa using hno)
        exact absurd hc (by simpa using find?_eq_none.mp hf r hr)
      have hnone : messages c.trace (c.nexttoken + 1) = [] := by
        by_contra hne
        have := h.old _ hne
        omega
      have hm : ∀ t, messages ((c.trace ++ [Event.request (c.nexttoken + 1) chan (.request chan) true]) ++
          [.dispatch (c.nexttoken + 1) uid chan m.flags m.payload]) t =
          if c.nexttoken + 1 = t then [m.flags] else messages c.trace t := by
        intro t
        rw [messages_concat, messages_concat_other t (by simp)]
        split
        next ht => rw [← ht, hnone, nil_append]
        next => rfl
      refine ⟨htable, fun t => ?_, fun t ht => ?_, fun r hr hd => ?_⟩
      · rw [Comm.emit, hm]
        split
        · exact framed_singleton hstart
        · exact h.framed t
      · rw [Comm.emit, hm] at ht
        split at ht
        next he => exact le_of_eq he.symm
        next => exact Nat.le_succ_of_le (h.old t ht)
      · rw [Comm.emit, hm]
        split
        · exact cons_ne_nil _ _
        next hne =>
          rcases mem_cons.mp hr with rfl | hr
          · exact absurd rfl hne
          · exact h.begun r hr hd
    | some r =>
      rw [hf] at ha
      have hr : r ∈ c.req := mem_of_find?_eq_some hf
      have hrc : r.chan = chan := by simpa using find?_some hf
      simp only at ha
      split at ha
      · cases ha
      next hstart =>
        split at ha
        · cases ha
        next hdata =>
          cases ha
          -- nobody may continue a request that was ended
          have hend : ∀ f ∈ messages c.trace r.token, flagEnd f = false := by
            obtain ⟨r', hr', hc', hor⟩ := hreg hvalid.1 hvalid.2 (by simpa using hstart)
            obtain rfl := inj_on_of_nodup_map h.table.chans hr' hr (hc'.trans hrc.symm)
            exact hor.resolve_left hdata
          have hbegun : messages c.trace r.token ≠ [] := h.begun r hr (by simpa using hdata)
          refine ⟨htable, fun t => ?_, fun t ht => ?_, fun r' hr' hd => ?_⟩
          · rw [Comm.emit, messages_concat]
            split
            next ht =>
              rw [← ht]
              exact framed_concat (h.framed _) hbegun (by simpa using hstart) hend
            next => exact h.framed t
          · rw [Comm.emit, messages_concat] at ht
            split at ht
            next he => exact he ▸ h.table.bound hr
            next => exact h.old t ht
          · rw [Comm.emit, messages_concat]
            split
            · simp
            · exact h.begun r' hr' hd

theorem frames_step (h : Frames c) {op : Op} (hreg : Regular c op) : Frames (step c op) := by
  cases op with
  | addrequest chan flags cb d => exact frames_addrequest h chan cb d hreg
  | process m uid chan => exact frames_process h m uid chan hreg
  | answer token error data fin => exact frames_answer h token error data fin
  | destroy chan => exact frames_destroy h chan

/-- Under every token the dispatcher sees one framed request, as long as no client continues a request
    that is not open or that it has ended. -/
theorem requests_framed {ops : List Op}
    (hreg : Along (fun c op => some (step c op)) Regular Comm.create ops) (t : ℕ) :
    Framed (messages (ops.foldl step Comm.create).trace t) := by
  have hinv : Frames (ops.foldl step Comm.create) := by
    refine runs_invariant (fun c op c' h hr hs => ?_) frames_create hreg (runs_total step Comm.create ops)
    rw [← Option.some.inj hs]
    exact frames_step h hr
  exact hinv.framed t

/-- A P_REQUEST with these flags on channel 1. -/
def request (flags : ℕ) : Op := .process ⟨true, pRequest, flags, []⟩ 1000 1

theorem requests_framed_split :
    messages ([request 1, request 0, request 2].foldl step Comm.create).trace 0x10000001 = [1, 0, 2] ∧
      Framed [1, 0, 2] := by
  have hm : messages ([request 1, request 0, request 2].foldl step Comm.create).trace 0x10000001 =
      [1, 0, 2] := by decide
  refine ⟨hm, hm ▸ requests_framed ?_ 0x10000001⟩
  simp only [along_total, request]
  refine ⟨fun _ _ h => ?_, fun _ _ _ => ?_, fun _ _ _ => ?_, trivial⟩
  · exact absurd h (by decide)
  · exact ⟨_, List.mem_cons_self, rfl, Or.inr (by decide)⟩
  · exact ⟨_, List.mem_cons_self, rfl, Or.inr (by decide)⟩

/-- A message behind the END of a split request, and one without START on an idle channel. -/
theorem stray_messages_dispatched :
    ¬ Framed (messages ([request 1, request 2, request 0].foldl step Comm.create).trace 0x10000001) ∧
    ¬ Framed (messages ([request 0].foldl step Comm.create).trace 0x10000001) := by
  have h₁ : messages ([request 1, request 2, request 0].foldl step Comm.create).trace 0x10000001 =
      [1, 2, 0] := by decide
  have h₂ : messages ([request 0].foldl step Comm.create).trace 0x10000001 = [0] := by decide
  rw [h₁, h₂]
  constructor
  · intro h
    have := (h [1] 2 [0] rfl).2 (by decide)
    cases this
  · intro h
    have := (h [] 0 [] rfl).1.mpr rfl
    cases this

end Anoubis.Proto.PolicyComm

import Anoubis.Lib.Update
import Anoubis.Proto.Comm
import Mathlib.Data.List.Nodup

/-! Answers find their request.

    Which requests are open can be read off the trace: a request is open from the moment it is entered
    until its last answer or until its channel is destroyed. The table holds exactly these, at most one
    for a channel, and every entry of the trace is justified by the requests open before it. -/

namespace Anoubis.Proto.PolicyComm

open Anoubis.Lib List

/-! ### Traces -/

/-- The request with this token is entered. -/
def Event.enters (t : ℕ) : Event → Prop
  | .request t' _ _ _ => t' = t
  | _ => False

/-- An answer to this token is passed to a callback. -/
def Event.passes (t : ℕ) : Event → Prop
  | .callback t' _ _ _ _ _ _ => t' = t
  | _ => False

/-- The last thing to happen to the request with this token. -/
def Event.ends (t : ℕ) : Event → Prop
  | .callback t' _ _ _ _ _ fin => t' = t ∧ fin = true
  | .abort t' _ => t' = t
  | _ => False

/-- The channel was not destroyed after the request was entered. -/
def Connected (l : List Event) (t chan : ℕ) : Prop :=
  ∀ p q, l = p ++ .destroy chan :: q → ∀ x ∈ p, ¬ x.enters t

/-- The request is open. -/
structure OpenIn (l : List Event) (t chan : ℕ) (callback : Callback) (dispatch : Bool) : Prop where
  entered : .request t chan callback dispatch ∈ l
  unfinished : ∀ x ∈ l, ¬ x.ends t
  connected : Connected l t chan

/-- What an entry of the trace needs. -/
def Ok (pre : List Event) : Event → Prop
  | .request t _ _ _ => ∀ x ∈ pre, ¬ x.enters t
  | .dispatch _ _ _ _ _ => True
  | .callback t chan cb _ _ start _ =>
    (∃ d, OpenIn pre t chan cb d) ∧ (start = true ↔ ∀ x ∈ pre, ¬ x.passes t)
  | .destroy _ => True
  | .abort t chan => ∃ p cb, pre = p ++ [.destroy chan] ∧ OpenIn p t chan cb true

variable {l : List Event} {t chan : ℕ} {x : Event} {cb : Callback} {d : Bool} {c c' : Comm}

theorem connected_concat (h : Connected l t chan) (hx : x ≠ .destroy chan) : Connected (l ++ [x]) t chan := by
  intro p q hsplit
  rcases concat_eq_split hsplit with ⟨-, -, hx'⟩ | ⟨q', -, hl⟩
  · exact absurd hx'.symm hx
  · exact h p q' hl

theorem connected_of_concat (h : Connected (l ++ [x]) t chan) : Connected l t chan := by
  intro p q hl
  refine h p (q ++ [x]) ?_
  rw [hl, append_assoc, cons_append]

theorem openIn_concat (h : OpenIn l t chan cb d) (hends : ¬ x.ends t) (hx : x ≠ .destroy chan) :
    OpenIn (l ++ [x]) t chan cb d where
  entered := mem_append_left _ h.entered
  unfinished := by
    intro y hy
    rcases mem_append.mp hy with hy | hy
    · exact h.unfinished y hy
    · rw [mem_singleton.mp hy]
      exact hends
  connected := connected_concat h.connected hx

theorem openIn_of_concat (h : OpenIn (l ++ [x]) t chan cb d) (hx : ¬ x.enters t) : OpenIn l t chan cb d where
  entered := by
    rcases mem_append.mp h.entered with hm | hm
    · exact hm
    · rw [← mem_singleton.mp hm] at hx
      exact absurd rfl hx
  unfinished := fun y hy => h.unfinished y (mem_append_left _ hy)
  connected := connected_of_concat h.connected

/-- After the channel was destroyed. -/
theorem not_openIn_destroy : ¬ OpenIn (l ++ [.destroy chan]) t chan cb d := by
  intro h
  rcases mem_append.mp h.entered with hm | hm
  · exact h.connected l [] rfl _ hm rfl
  · cases mem_singleton.mp hm

/-! ### The table -/

structure Table (c : Comm) : Prop where
  chans : (c.req.map Request.chan).Nodup
  tokens : (c.req.map Request.token).Nodup
  old : ∀ t, (∃ x ∈ c.trace, x.enters t ∨ x.passes t ∨ x.ends t) → t ≤ c.nexttoken
  sound : ∀ r ∈ c.req, OpenIn c.trace r.token r.chan r.callback r.dispatch
  complete : ∀ t chan cb d, OpenIn c.trace t chan cb d →
    ∃ r ∈ c.req, r.token = t ∧ r.chan = chan ∧ r.callback = cb ∧ r.dispatch = d
  started : ∀ r ∈ c.req, r.replyDatastart = true ↔ ∃ x ∈ c.trace, x.passes r.token
  unfinished : ∀ r ∈ c.req, r.replyDataend = false
  ordered : AtEach Ok c.trace

variable {r : Request} {req' : List Request} {token flags : ℕ}

theorem Table.bound (h : Table c) (hr : r ∈ c.req) : r.token ≤ c.nexttoken :=
  h.old r.token ⟨_, (h.sound r hr).entered, .inl rfl⟩

theorem Table.not_started (h : Table c) (hr : r ∈ c.req) :
    (!r.replyDatastart) = true ↔ ∀ x ∈ c.trace, ¬ x.passes r.token := by
  rw [Bool.not_eq_true', ← Bool.not_eq_true, h.started r hr]
  exact ⟨fun h x hx hp => h ⟨x, hx, hp⟩, fun h ⟨x, hx, hp⟩ => h x hx hp⟩

theorem table_create : Table Comm.create where
  chans := nodup_nil
  tokens := nodup_nil
  old := by
    rintro t ⟨x, hx, -⟩
    cases hx
  sound := nofun
  complete := by
    intro t chan cb d h
    cases h.entered
  started := nofun
  unfinished := nofun
  ordered := atEach_nil Ok

/-- The table behind `addrequest` on a channel without request. -/
def entered (c : Comm) (chan : ℕ) (fin : Bool) (cb : Callback) (d : Bool) : Comm :=
  { nexttoken := c.nexttoken + 1
    req := ⟨c.nexttoken + 1, chan, fin, false, false, cb, d⟩ :: c.req
    trace := c.trace ++ [.request (c.nexttoken + 1) chan cb d] }

section

variable (h : Table c)
include h

theorem table_entered (hfind : c.req.find? (fun r => r.chan == chan) = none) (fin : Bool)
    (cb : Callback) (d : Bool) : Table (entered c chan fin cb d) := by
  have hnew : ∀ x ∈ c.trace, ¬ x.enters (c.nexttoken + 1) ∧ ¬ x.passes (c.nexttoken + 1) ∧
      ¬ x.ends (c.nexttoken + 1) := by
    intro x hx
    refine ⟨fun he => ?_, fun hp => ?_, fun he => ?_⟩
    · exact absurd (h.old _ ⟨x, hx, .inl he⟩) (by omega)
    · exact absurd (h.old _ ⟨x, hx, .inr (.inl hp)⟩) (by omega)
    · exact absurd (h.old _ ⟨x, hx, .inr (.inr he)⟩) (by omega)
  have hchan : ∀ r ∈ c.req, r.chan ≠ chan := by
    intro r hr
    simpa using find?_eq_none.mp hfind r hr
  refine ⟨?_, ?_, ?_, ?_, ?_, ?_, ?_, ?_⟩
  · refine nodup_cons.mpr ⟨fun hm => ?_, h.chans⟩
    obtain ⟨r, hr, he⟩ := mem_map.mp hm
    exact hchan r hr he
  · refine nodup_cons.mpr ⟨fun hm => ?_, h.tokens⟩
    obtain ⟨r, hr, he⟩ := mem_map.mp hm
    have := h.bound hr
    simp only at he
    omega
  · rintro t ⟨x, hx, hor⟩
    rcases mem_append.mp hx with hx | hx
    · exact Nat.le_succ_of_le (h.old t ⟨x, hx, hor⟩)
    · rw [mem_singleton.mp hx] at hor
      rcases hor with he | hp | he
      · exact le_of_eq he.symm
      · cases hp
      · cases he
  · intro r hr
    rcases mem_cons.mp hr with rfl | hr
    · refine ⟨mem_append_right _ (mem_singleton.mpr rfl), fun x hx he => ?_, ?_⟩
      · rcases mem_append.mp hx with hx | hx
        · exact (hnew x hx).2.2 he
        · rw [mem_singleton.mp hx] at he
          cases he
      · refine connected_concat (fun p q hl x hx => ?_) (by simp)
        exact (hnew x (hl ▸ mem_append_left _ hx)).1
    · exact openIn_concat (h.sound r hr) (fun he => nomatch he) (by simp)
  · intro t chan' cb' d' hopen
    by_cases ht : c.nexttoken + 1 = t
    · subst ht
      rcases mem_append.mp hopen.entered with hm | hm
      · exact absurd rfl (hnew _ hm).1
      · obtain ⟨-, rfl, rfl, rfl⟩ := Event.request.inj (mem_singleton.mp hm)
        exact ⟨_, mem_cons_self, rfl, rfl, rfl, rfl⟩
    · obtain ⟨r, hr, hrest⟩ := h.complete t chan' cb' d' (openIn_of_concat hopen ht)
      exact ⟨r, mem_cons_of_mem _ hr, hrest⟩
  · intro r hr
    rcases mem_cons.mp hr with rfl | hr
    · refine iff_of_false (by simp) fun hex => ?_
      rcases exists_mem_concat.mp hex with ⟨x, hx, hp⟩ | hp
      · exact (hnew x hx).2.1 hp
      · cases hp
    · rw [h.started r hr, entered, exists_mem_concat]
      exact (or_iff_left nofun).symm
  · intro r hr
    rcases mem_cons.mp hr with rfl | hr
    · rfl
    · exact h.unfinished r hr
  · exact atEach_concat h.ordered fun x hx => (hnew x hx).1

/-- An entry that is about no request. -/
theorem table_emit (hq : ∀ t, ¬ x.enters t ∧ ¬ x.passes t ∧ ¬ x.ends t)
    (hd : ∀ chan, x ≠ .destroy chan) (hok : Ok c.trace x) : Table (c.emit x) where
  chans := h.chans
  tokens := h.tokens
  old := by
    rintro t hex
    rcases exists_mem_concat.mp hex with hex | hor
    · exact h.old t hex
    · obtain ⟨h₁, h₂, h₃⟩ := hq t
      rcases hor with hor | hor | hor
      · exact absurd hor h₁
      · exact absurd hor h₂
      · exact absurd hor h₃
  sound := fun r hr => openIn_concat (h.sound r hr) (hq r.token).2.2 (hd r.chan)
  complete := fun t chan cb d hopen => h.complete t chan cb d (openIn_of_concat hopen (hq t).1)
  started := by
    intro r hr
    rw [h.started r hr, Comm.emit, exists_mem_concat]
    exact (or_iff_left (hq r.token).2.1).symm
  unfinished := h.unfinished
  ordered := atEach_concat h.ordered hok

/-- Requests are left out, and those left are as before up to REPLY_DATASTART. -/
theorem table_answered (hr : r ∈ c.req) (error : ℕ) (data : List UInt8) (fin : Bool)
    (hchans : (req'.map Request.chan).Sublist (c.req.map Request.chan))
    (htokens : (req'.map Request.token).Sublist (c.req.map Request.token))
    (hfrom : ∀ r' ∈ req', (fin = true → r'.token ≠ r.token) ∧ ∃ r₀ ∈ c.req, r'.token = r₀.token ∧
      r'.chan = r₀.chan ∧ r'.callback = r₀.callback ∧ r'.dispatch = r₀.dispatch ∧ r'.replyDataend = r₀.replyDataend ∧
      (r'.replyDatastart = true ↔ (r₀.replyDatastart = true ∨ r.token = r'.token)))
    (hto : ∀ r₀ ∈ c.req, (fin = true → r₀.token ≠ r.token) → ∃ r' ∈ req', r'.token = r₀.token ∧
      r'.chan = r₀.chan ∧ r'.callback = r₀.callback ∧ r'.dispatch = r₀.dispatch) : Table ({ c with req := req' }.emit
      (.callback r.token r.chan r.callback error data (!r.replyDatastart) fin)) where
  chans := h.chans.sublist hchans
  tokens := h.tokens.sublist htokens
  old := by
    intro t hex
    rcases exists_mem_concat.mp hex with hex | hor
    · exact h.old t hex
    · rcases hor with he | hp | he
      · cases he
      · exact hp ▸ h.bound hr
      · exact he.1 ▸ h.bound hr
  sound := by
    intro r' hr'
    obtain ⟨hne, r₀, hr₀, ht, hc, hcb, hd, -⟩ := hfrom r' hr'
    rw [ht, hc, hcb, hd]
    refine openIn_concat (h.sound r₀ hr₀) (fun he => ?_) (by simp)
    exact hne he.2 (ht.trans he.1.symm)
  complete := by
    intro t chan cb d hopen
    obtain ⟨r₀, hr₀, rfl, rfl, rfl, rfl⟩ := h.complete t chan cb d (openIn_of_concat hopen id)
    refine hto r₀ hr₀ fun hfin heq => ?_
    refine hopen.unfinished _ (mem_append_right _ (mem_singleton.mpr rfl)) ?_
    exact ⟨heq.symm, hfin⟩
  started := by
    intro r' hr'
    obtain ⟨-, r₀, hr₀, ht, -, -, -, -, hs⟩ := hfrom r' hr'
    rw [hs, h.started r₀ hr₀, Comm.emit, exists_mem_concat, ht]
    rfl
  unfinished := by
    intro r' hr'
    obtain ⟨-, r₀, hr₀, -, -, -, -, he, -⟩ := hfrom r' hr'
    rw [he]
    exact h.unfinished r₀ hr₀
  ordered := by
    exact atEach_concat h.ordered ⟨⟨r.dispatch, h.sound r hr⟩, h.not_started hr⟩

theorem table_answer {error : ℕ} {data : List UInt8} {fin : Bool}
    (ha : answer c token error data fin = .ok c') : Table c' := by
  rw [answer] at ha
  cases hf : c.req.find? (fun r => r.token == token) with
  | none =>
    rw [hf] at ha
    cases ha
  | some r =>
    rw [hf] at ha
    have hr : r ∈ c.req := mem_of_find?_eq_some hf
    obtain rfl : r.token = token := by simpa using find?_some hf
    simp only [h.unfinished r hr, Bool.false_eq_true, if_false] at ha
    cases ha
    cases fin with
    | true =>
      simp only [if_true]
      have hsub : (c.req.eraseP (fun r' => r'.token == r.token)).Sublist c.req := eraseP_sublist
      refine table_answered h hr error data true (hsub.map _) (hsub.map _) (fun r' hr' => ?_) ?_
      · obtain ⟨hmem, hne⟩ := (mem_eraseP_key h.tokens).mp hr'
        exact ⟨fun _ => hne, r', hmem, rfl, rfl, rfl, rfl, rfl, by simp [Ne.symm hne]⟩
      · intro r₀ hr₀ hne
        exact ⟨r₀, (mem_eraseP_key h.tokens).mpr ⟨hr₀, hne rfl⟩, rfl, rfl, rfl, rfl⟩
    | false =>
      simp only [Bool.false_eq_true, if_false]
      refine table_answered h hr error data false ?_ ?_ (fun r' hr' => ?_) fun r₀ hr₀ _ => ?_
      · rw [map_map, map_congr_left fun r' _ => ?_]
        rw [Function.comp_apply]
        split <;> rfl
      · rw [map_map, map_congr_left fun r' _ => ?_]
        rw [Function.comp_apply]
        split <;> rfl
      · obtain ⟨r₀, hr₀, rfl⟩ := mem_map.mp hr'
        refine ⟨nofun, r₀, hr₀, ?_⟩
        by_cases he : r₀.token = r.token
        · simp [he]
        · simp [he, Ne.symm he]
      · refine ⟨_, mem_map_of_mem hr₀, ?_⟩
        split <;> exact ⟨rfl, rfl, rfl, rfl⟩

/-- The request of a channel, if there is one, leaves the table. -/
theorem table_destroyed (chan : ℕ) (hreq : ∀ r, r ∈ req' ↔ r ∈ c.req ∧ r.chan ≠ chan) (hsub : req'.Sublist c.req) :
    Table ({ c with req := req' }.emit (.destroy chan)) where
  chans := h.chans.sublist (hsub.map _)
  tokens := h.tokens.sublist (hsub.map _)
  old := by
    intro t hex
    rcases exists_mem_concat.mp hex with hex | hor
    · exact h.old t hex
    · rcases hor with hor | hor | hor <;> cases hor
  sound := by
    intro r hr
    obtain ⟨hr, hne⟩ := (hreq r).mp hr
    exact openIn_concat (h.sound r hr) id fun he => hne (Event.destroy.inj he).symm
  complete := by
    intro t chan' cb d hopen
    obtain ⟨r, hr, rfl, rfl, rfl, rfl⟩ := h.complete t chan' cb d (openIn_of_concat hopen id)
    refine ⟨r, (hreq r).mpr ⟨hr, ?_⟩, rfl, rfl, rfl, rfl⟩
    rintro rfl
    exact not_openIn_destroy hopen
  started := by
    intro r hr
    rw [h.started r ((hreq r).mp hr).1, Comm.emit, exists_mem_concat]
    exact (or_iff_left id).symm
  unfinished := fun r hr => h.unfinished r ((hreq r).mp hr).1
  ordered := atEach_concat h.ordered trivial

/-- The dispatcher hears of a request that has just left the table. -/
theorem table_abort (hgone : ∀ r ∈ c.req, r.token ≠ t) (hold : t ≤ c.nexttoken)
    (hok : Ok c.trace (.abort t chan)) : Table (c.emit (.abort t chan)) where
  chans := h.chans
  tokens := h.tokens
  old := by
    intro t' hex
    rcases exists_mem_concat.mp hex with hex | hor
    · exact h.old t' hex
    · rcases hor with hor | hor | hor
      · cases hor
      · cases hor
      · exact hor ▸ hold
  sound := fun r hr => openIn_concat (h.sound r hr) (fun he => hgone r hr he.symm) (by simp)
  complete := fun t' chan' cb d hopen => h.complete t' chan' cb d (openIn_of_concat hopen id)
  started := by
    intro r hr
    rw [h.started r hr, Comm.emit, exists_mem_concat]
    exact (or_iff_left id).symm
  unfinished := h.unfinished
  ordered := atEach_concat h.ordered hok

theorem table_destroy (chan : ℕ) : Table (destroy c chan) := by
  rw [destroy]
  cases hf : c.req.find? (fun r => r.chan == chan) with
  | none =>
    have hne : ∀ r ∈ c.req, r.chan ≠ chan := by
      intro r hr
      simpa using find?_eq_none.mp hf r hr
    exact table_destroyed h chan (fun r => ⟨fun hr => ⟨hr, hne r hr⟩, And.left⟩) (.refl _)
  | some r =>
    have hr : r ∈ c.req := mem_of_find?_eq_some hf
    obtain rfl : r.chan = chan := by simpa using find?_some hf
    have h₁ := table_destroyed h r.chan (fun _ => mem_eraseP_key h.chans) eraseP_sublist
    simp only
    split
    next hd =>
      refine table_abort h₁ (fun r' hr' he => ?_) (h.bound hr) ⟨c.trace, r.callback, rfl, ?_⟩
      · obtain ⟨hmem, hne⟩ := (mem_eraseP_key h.chans).mp hr'
        exact hne (congrArg Request.chan (inj_on_of_nodup_map h.tokens hmem hr he))
      · exact hd ▸ h.sound r hr
    next => exact h₁

theorem table_addrequest (ha : addrequest c chan flags cb d = .ok (token, c')) : Table c' := by
  rw [addrequest] at ha
  cases hf : c.req.find? (fun r => r.chan == chan) with
  | none =>
    rw [hf] at ha
    cases ha
    exact table_entered h hf (flagEnd flags) cb d
  | some r =>
    rw [hf] at ha
    simp only at ha
    split at ha
    · cases ha
    · split at ha
      · cases ha
      · cases ha
        exact h

end

theorem processBegin_eq_ok {m : Msg} {uid : ℕ} (h : processBegin c m uid chan = .ok c') :
    ∃ token c₁, addrequest c chan m.flags (.request chan) true = .ok (token, c₁) ∧
      c' = c₁.emit (.dispatch token uid chan m.flags m.payload) := by
  rw [processBegin] at h
  split at h
  · cases h
  · split at h
    · cases h
    · cases ha : addrequest c chan m.flags (.request chan) true with
      | error e =>
        rw [ha] at h
        cases h
      | ok r =>
        rw [ha] at h
        exact ⟨r.1, r.2, rfl, (Except.ok.inj h).symm⟩

theorem table_step (c : Comm) (op : Op) (h : Table c) : Table (step c op) := by
  cases op with
  | addrequest chan flags cb d =>
    rw [step]
    cases ha : addrequest c chan flags cb d with
    | error e => exact h
    | ok r => exact table_addrequest h ha
  | process m uid chan =>
    rw [step]
    cases hp : processBegin c m uid chan with
    | error e => exact h
    | ok c' =>
      obtain ⟨token, c₁, ha, rfl⟩ := processBegin_eq_ok hp
      exact table_emit (table_addrequest h ha) (fun t => ⟨nofun, nofun, nofun⟩) nofun trivial
  | answer token error data fin =>
    rw [step]
    cases ha : answer c token error data fin with
    | error e => exact h
    | ok c' => exact table_answer h ha
  | destroy chan => exact table_destroy h chan

/-! ### The claims on a trace -/

/-- The table and what it has done. -/
structure Demultiplexed (c : Comm) : Prop where
  /-- At most one request of a channel is open. -/
  single : (c.req.map Request.chan).Nodup
  /-- No token is used twice. -/
  fresh : ∀ pre t chan cb d post, c.trace = pre ++ .request t chan cb d :: post →
    ∀ x ∈ pre ++ post, ¬ x.enters t
  /-- An answer goes to the callback of the request with its token. -/
  own : ∀ pre t chan cb error data start fin post,
    c.trace = pre ++ .callback t chan cb error data start fin :: post →
    ∃ d, Event.request t chan cb d ∈ pre
  /-- The first answer, and only this one, has POLICY_FLAG_START. -/
  first : ∀ pre t chan cb error data start fin post,
    c.trace = pre ++ .callback t chan cb error data start fin :: post →
    (start = true ↔ ∀ x ∈ pre, ¬ x.passes t)
  /-- The answer with POLICY_FLAG_END is the last one and takes the request off the table. -/
  last : ∀ pre t chan cb error data start post,
    c.trace = pre ++ .callback t chan cb error data start true :: post →
    (∀ x ∈ post, ¬ x.passes t) ∧ ∀ r ∈ c.req, r.token ≠ t
  /-- No callback of a channel is called once the channel is destroyed. -/
  closed : ∀ pre chan post, c.trace = pre ++ .destroy chan :: post →
    ∀ t cb d, Event.request t chan cb d ∈ pre → ∀ x ∈ post, ¬ x.passes t
  /-- The dispatcher hears exactly once of a request that was open when its channel was destroyed. -/
  aborted : ∀ pre chan post, c.trace = pre ++ .destroy chan :: post →
    ∀ t cb, OpenIn pre t chan cb true → c.trace.count (.abort t chan) = 1
  /-- An answer with the token of an open request is passed on. -/
  answered : ∀ r ∈ c.req, ∀ error data fin, ∃ c' start, answer c r.token error data fin = .ok c' ∧
    c'.trace = c.trace ++ [.callback r.token r.chan r.callback error data start fin] ∧
    (start = true ↔ ∀ x ∈ c.trace, ¬ x.passes r.token)
  /-- Any other answer is refused. -/
  unknown : ∀ token, (∀ r ∈ c.req, r.token ≠ token) → ∀ error data fin,
    answer c token error data fin = .error esrch

/-- The dispatcher has heard of every request that was open when its channel was destroyed. -/
def Told (l : List Event) : Prop :=
  ∀ pre chan post, l = pre ++ .destroy chan :: post → ∀ t cb, OpenIn pre t chan cb true →
    Event.abort t chan ∈ l

theorem told_concat (h : Told l) (hx : ∀ chan, x ≠ .destroy chan) : Told (l ++ [x]) := by
  intro pre chan post hsplit t cb hopen
  rcases concat_eq_split hsplit with ⟨-, -, he⟩ | ⟨post', -, hl⟩
  · exact absurd he.symm (hx chan)
  · exact mem_append_left _ (h pre chan post' hl t cb hopen)

theorem told_destroy (h : Table c) (ht : Told c.trace) (chan : ℕ) : Told (destroy c chan).trace := by
  have hold : ∀ {pre chan' post x}, c.trace ++ [.destroy chan] ++ x = pre ++ .destroy chan' :: post →
      ∀ t cb, OpenIn pre t chan' cb true → x = [] ∨ (∃ t', x = [.abort t' chan]) →
      (∃ post', c.trace = pre ++ .destroy chan' :: post') ∨ (pre = c.trace ∧ chan' = chan) := by
    intro pre chan' post x hsplit t cb _ hx
    have hbase : ∀ {post}, c.trace ++ [.destroy chan] = pre ++ .destroy chan' :: post →
        (∃ post', c.trace = pre ++ .destroy chan' :: post') ∨ (pre = c.trace ∧ chan' = chan) := by
      intro post hs
      rcases concat_eq_split hs with ⟨-, hpre, he⟩ | ⟨post', -, hl⟩
      · exact .inr ⟨hpre, Event.destroy.inj he⟩
      · exact .inl ⟨post', hl⟩
    rcases hx with rfl | ⟨t', rfl⟩
    · rw [append_nil] at hsplit
      exact hbase hsplit
    · rcases concat_eq_split hsplit with ⟨-, -, he⟩ | ⟨post', -, hl⟩
      · cases he
      · exact hbase hl
  rw [destroy]
  cases hf : c.req.find? (fun r => r.chan == chan) with
  | none =>
    intro pre chan' post hsplit t cb hopen
    rcases hold (x := []) (by rw [append_nil]; exact hsplit) t cb hopen (.inl rfl) with
      ⟨post', hl⟩ | ⟨rfl, rfl⟩
    · exact mem_append_left _ (ht pre chan' post' hl t cb hopen)
    · obtain ⟨r, hr, -, hc, -⟩ := h.complete t chan' cb true hopen
      exact absurd hc (by simpa using find?_eq_none.mp hf r hr)
  | some r =>
    have hr : r ∈ c.req := mem_of_find?_eq_some hf
    have hrc : r.chan = chan := by simpa using find?_some hf
    simp only
    intro pre chan' post hsplit t cb hopen
    by_cases hd : r.dispatch = true
    · rw [if_pos hd] at hsplit ⊢
      rcases hold hsplit t cb hopen (.inr ⟨r.token, rfl⟩) with ⟨post', hl⟩ | ⟨rfl, rfl⟩
      · refine mem_append_left _ (mem_append_left _ ?_)
        exact ht pre chan' post' hl t cb hopen
      · obtain ⟨r', hr', rfl, hc', -⟩ := h.complete t chan' cb true hopen
        obtain rfl := inj_on_of_nodup_map h.chans hr' hr (hc'.trans hrc.symm)
        exact mem_append_right _ (mem_singleton.mpr rfl)
    · rw [if_neg hd] at hsplit ⊢
      rcases hold (x := []) (by rw [append_nil]; exact hsplit) t cb hopen (.inl rfl) with
        ⟨post', hl⟩ | ⟨rfl, rfl⟩
      · exact mem_append_left _ (ht pre chan' post' hl t cb hopen)
      · obtain ⟨r', hr', -, hc', -, hd'⟩ := h.complete t chan' cb true hopen
        obtain rfl := inj_on_of_nodup_map h.chans hr' hr (hc'.trans hrc.symm)
        exact absurd hd' hd

theorem told_addrequest (ht : Told c.trace) (ha : addrequest c chan flags cb d = .ok (token, c')) :
    Told c'.trace := by
  rw [addrequest] at ha
  split at ha
  · split at ha
    · cases ha
    · split at ha
      · cases ha
      · cases ha
        exact ht
  · cases ha
    exact told_concat ht nofun

theorem told_step (h : Table c) (ht : Told c.trace) (op : Op) : Told (step c op).trace := by
  cases op with
  | addrequest chan flags cb d =>
    rw [step]
    cases ha : addrequest c chan flags cb d with
    | error e => exact ht
    | ok r => exact told_addrequest ht ha
  | process m uid chan =>
    rw [step]
    cases hp : processBegin c m uid chan with
    | error e => exact ht
    | ok c' =>
      obtain ⟨token, c₁, ha, rfl⟩ := processBegin_eq_ok hp
      exact told_concat (told_addrequest ht ha) nofun
  | answer token error data fin =>
    rw [step]
    cases ha : answer c token error data fin with
    | error e => exact ht
    | ok c' =>
      rw [answer] at ha
      split at ha
      · cases ha
      · split at ha
        · cases ha
        · cases ha
          exact told_concat ht nofun
  | destroy chan => exact told_destroy h ht chan

/-- A token is entered once. -/
theorem enters_unique (h : AtEach Ok l) {y : Event} (hx : x ∈ l) (hy : y ∈ l) (hxt : x.enters t)
    (hyt : y.enters t) : x = y := by
  have hno : ∀ {pre z w}, Ok pre z → w ∈ pre → z.enters t → w.enters t → False := by
    intro pre z w hok hw hz hwt
    cases z with
    | request t' _ _ _ =>
      obtain rfl : t' = t := hz
      exact hok w hw hwt
    | _ => cases hz
  obtain ⟨p, q, rfl⟩ := append_of_mem hx
  rcases mem_append.mp hy with hy | hy
  · exact (hno (h p x q rfl) hy hxt hyt).elim
  · rcases mem_cons.mp hy with rfl | hy
    · rfl
    · obtain ⟨mid, hok, -⟩ := h.later rfl hy
      exact (hno hok (mem_append_right _ mem_cons_self) hyt hxt).elim

theorem not_mem_of_ok_abort {pre : List Event} (h : Ok pre (.abort t chan)) : Event.abort t chan ∉ pre := by
  obtain ⟨p, cb, rfl, hopen⟩ := h
  intro hm
  rcases mem_append.mp hm with hm | hm
  · exact hopen.unfinished _ hm rfl
  · cases mem_singleton.mp hm

theorem demultiplexed_of_table (h : Table c) (ht : Told c.trace) : Demultiplexed c where
  single := h.chans
  fresh := by
    intro pre t chan cb d post hl x hx he
    rcases mem_append.mp hx with hx | hx
    · exact h.ordered pre _ post hl x hx he
    · obtain ⟨mid, hok, -⟩ := h.ordered.later hl hx
      cases x with
      | request t' _ _ _ =>
        obtain rfl : t' = t := he
        exact hok _ (mem_append_right _ mem_cons_self) rfl
      | _ => cases he
  own := by
    intro pre t chan cb error data start fin post hl
    obtain ⟨⟨d, hopen⟩, -⟩ := h.ordered pre _ post hl
    exact ⟨d, hopen.entered⟩
  first := fun pre t chan cb error data start fin post hl => (h.ordered pre _ post hl).2
  last := by
    intro pre t chan cb error data start post hl
    constructor
    · intro x hx hp
      obtain ⟨mid, hok, -⟩ := h.ordered.later hl hx
      cases x with
      | callback t' chan' cb' _ _ _ _ =>
        obtain rfl : t' = t := hp
        obtain ⟨⟨d, hopen⟩, -⟩ := hok
        exact hopen.unfinished _ (mem_append_right _ mem_cons_self) ⟨rfl, rfl⟩
      | _ => cases hp
    · rintro r hr rfl
      have hm : Event.callback r.token chan cb error data start true ∈ c.trace := by simp [hl]
      exact (h.sound r hr).unfinished _ hm ⟨rfl, rfl⟩
  closed := by
    intro pre chan post hl t cb d hreq x hx hp
    obtain ⟨mid, hok, hsub⟩ := h.ordered.later hl hx
    cases x with
    | callback t' chan' cb' _ _ _ _ =>
      obtain rfl : t' = t := hp
      obtain ⟨⟨d', hopen⟩, -⟩ := hok
      -- the channel of a token is the one it was entered for
      have hm : Event.request t' chan' cb' d' ∈ c.trace := hsub _ hopen.entered
      have hm' : Event.request t' chan cb d ∈ c.trace := hl ▸ mem_append_left _ hreq
      obtain ⟨-, rfl, -, -⟩ := Event.request.inj (enters_unique h.ordered hm hm' rfl rfl)
      exact hopen.connected pre mid rfl _ hreq rfl
    | _ => cases hp
  aborted := by
    intro pre chan post hl t cb hopen
    obtain ⟨p, q, hpq⟩ := append_of_mem (ht pre chan post hl t cb hopen)
    have hp : Event.abort t chan ∉ p := not_mem_of_ok_abort (h.ordered p _ q hpq)
    have hq : Event.abort t chan ∉ q := by
      intro hm
      obtain ⟨mid, hok, -⟩ := h.ordered.later hpq hm
      exact not_mem_of_ok_abort hok (mem_append_right _ mem_cons_self)
    rw [hpq, count_append, count_cons_self, count_eq_zero_of_not_mem hp, count_eq_zero_of_not_mem hq]
  answered := by
    intro r hr error data fin
    have hf : c.req.find? (fun r' => r'.token == r.token) = some r := find?_key h.tokens hr
    rw [answer, hf]
    simp only [h.unfinished r hr, Bool.false_eq_true, if_false]
    exact ⟨_, !r.replyDatastart, rfl, rfl, h.not_started hr⟩
  unknown := by
    intro token hne error data fin
    have hf : c.req.find? (fun r => r.token == token) = none := by
      rw [find?_eq_none]
      intro r hr
      simpa using hne r hr
    rw [answer, hf]

/-- Whatever is requested, answered and closed, in whatever order and however deep inside callbacks:
    every answer finds the request it belongs to, and no other. -/
theorem requests_demultiplexed (calls : List Call) : Demultiplexed (execs calls Comm.create) := by
  have hinv : Table (execs calls Comm.create) ∧ Told (execs calls Comm.create).trace := by
    refine execs_keeps (I := fun c => Table c ∧ Told c.trace) (fun c op hc => ?_) calls _
      ⟨table_create, ?_⟩
    · exact ⟨table_step c op hc.1, told_step hc.1 hc.2 op⟩
    · intro pre chan post hl
      simp [Comm.create] at hl
  exact demultiplexed_of_table hinv.1 hinv.2

/-- A callback that closes the channel of the request it answers. -/
example : (execs [.process ⟨true, pRequest, 3, []⟩ 1000 1 [] 0 [],
    .answer 0x10000001 0 [] false [.destroy 1 []], .answer 0x10000001 0 [] true []] Comm.create).trace =
    [.request 0x10000001 1 (.request 1) true, .dispatch 0x10000001 1000 1 3 [],
      .callback 0x10000001 1 (.request 1) 0 [] true false, .destroy 1, .abort 0x10000001 1] := by
  decide

end Anoubis.Proto.PolicyComm

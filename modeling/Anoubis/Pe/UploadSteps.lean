import Anoubis.Pe.Upload

/-! What one message of a policy upload can do.

    A message is either accepted, and then its bytes are in the temporary files and a
    POLICY_FLAG_END goes on to verify, parse and install; or its request is dropped together with the
    temporary files. Nothing else changes: a message leaves the files and the requests of other tokens
    alone, and only the END branch touches what is installed.

        message --> dropped
                └─▶ accepted ──▶ request stays open
                             └─▶ END ──▶ stopped | half | installed                              -/

namespace Anoubis.Pe.Upload

open List

variable {Key R : Type}

/-! ### Frames -/

/-- The token in the name of a temporary file. -/
def FName.token : FName → Option ℕ
  | .real _ _ => none
  | .realSig _ _ => none
  | .tmp _ _ t => some t
  | .tmpSig _ _ t => some t

/-- Nothing but the temporary files of token `t` and the list of requests has changed. -/
structure Frame (t : ℕ) (st st' : State R) : Prop where
  pdb : st'.pdb = st.pdb
  files : ∀ f, f.token ≠ some t → st'.files f = st.files f

theorem Frame.refl (t : ℕ) (st : State R) : Frame t st st := ⟨rfl, fun _ _ => rfl⟩

variable {t : ℕ} {st₁ st₂ st₃ st st' : State R} {f : FName} {req : Req} {buf : List UInt8} {env : Env Key R}
variable {p : PolRequest} {r : Option Reply} {key : Option Key}

theorem Frame.trans (h : Frame t st₁ st₂) (h' : Frame t st₂ st₃) : Frame t st₁ st₃ :=
  ⟨h'.pdb.trans h.pdb, fun f hf => (h'.files f hf).trans (h.files f hf)⟩

theorem frame_put (st : State R) (hf : f.token = some t) (c : Option (List UInt8)) : Frame t st (st.put f c) where
  pdb := rfl
  files := by
    intro g hg
    have hne : g ≠ f := fun h => hg (h ▸ hf)
    simp [State.put, hne]

theorem frame_unlinkOpt (st : State R) {f : Option FName} (hf : ∀ g, f = some g → g.token = some t) :
    Frame t st (unlinkOpt st f) := by
  cases f with
  | none => exact Frame.refl t st
  | some g => exact frame_put st (hf g rfl) none

/-- The temporary files of a request carry its token. -/
def Req.Named (req : Req) : Prop :=
  (∀ f, req.tmpname = some f → f.token = some req.token) ∧
    ∀ f, req.tmpsig = some f → f.token = some req.token

theorem preqs_unlinkOpt (st : State R) (f : Option FName) : (unlinkOpt st f).preqs = st.preqs := by
  cases f <;> rfl

/-- The request of token `t` is gone. -/
structure Dropped (t : ℕ) (st st' : State R) : Prop where
  frame : Frame t st st'
  preqs : st'.preqs = st.preqs.filter (fun r => r.token ≠ t)

theorem dropped_put (hn : req.Named) (hf : Frame req.token st st₁)
    (hp : st₁.preqs.filter (fun r => r.token ≠ req.token) = st.preqs.filter (fun r => r.token ≠ req.token)) :
    Dropped req.token st (pePolicyRequestPut st₁ req) where
  frame := by
    refine hf.trans (Frame.trans ?_ (Frame.trans (frame_unlinkOpt _ hn.1) (frame_unlinkOpt _ hn.2)))
    exact ⟨rfl, fun _ _ => rfl⟩
  preqs := by
    rw [pePolicyRequestPut, preqs_unlinkOpt, preqs_unlinkOpt]
    exact hp

/-! ### Bytes -/

/-- The bytes `bs` have been appended to `f`. -/
structure Wrote (f : FName) (bs : List UInt8) (st st' : State R) : Prop where
  pdb : st'.pdb = st.pdb
  preqs : st'.preqs = st.preqs
  other : ∀ g, g ≠ f → st'.files g = st.files g
  file : ∀ c, st.files f = some c → st'.files f = some (c ++ bs)

theorem Wrote.nil (f : FName) (st : State R) : Wrote f [] st st :=
  ⟨rfl, rfl, fun _ _ => rfl, fun c hc => by rw [append_nil, hc]⟩

theorem Wrote.trans {bs cs : List UInt8} (h : Wrote f bs st₁ st₂) (h' : Wrote f cs st₂ st₃) :
    Wrote f (bs ++ cs) st₁ st₃ where
  pdb := h'.pdb.trans h.pdb
  preqs := h'.preqs.trans h.preqs
  other := fun g hg => (h'.other g hg).trans (h.other g hg)
  file := fun c hc => by rw [h'.file _ (h.file c hc), append_assoc]

theorem wrote_tick (f : FName) (st : State R) : Wrote f [] st st.tick :=
  ⟨rfl, rfl, fun _ _ => rfl, fun c hc => by rw [append_nil]; exact hc⟩

theorem wrote_append (st : State R) (f : FName) (bs : List UInt8) :
    Wrote f bs st (st.tick.append f bs) where
  pdb := rfl
  preqs := rfl
  other := by
    intro g hg
    simp [State.append, State.put, State.tick, hg]
  file := by
    intro c hc
    simp [State.append, State.put, State.tick, hc]

theorem Wrote.frame {bs : List UInt8} (h : Wrote f bs st st') (hf : f.token = some t) : Frame t st st' :=
  ⟨h.pdb, fun g hg => h.other g fun hgf => hg (hgf ▸ hf)⟩

/-- A write loop transfers the bytes asked for, or it fails somewhere on the way. -/
theorem writeLoop_cases (env : Env Key R) (f : FName) (fuel : ℕ) :
    ∀ (n : ℕ) (st : State R) (buf : List UInt8) (written : ℕ), n ≤ fuel →
    (∀ st' buf' w, writeLoop env f fuel n st buf written = .done st' buf' w →
      n ≤ buf.length ∧ buf' = buf.drop n ∧ w = written + n ∧ Wrote f (buf.take n) st st') ∧
    (∀ st' e, writeLoop env f fuel n st buf written = .err st' e → ∃ bs, Wrote f bs st st') := by
  -- one round is one call of `write`; what it transfers is a piece of `buf`
  induction fuel with
  | zero =>
    intro n st buf written hn
    obtain rfl := Nat.le_zero.mp hn
    constructor
    · intro st' buf' w h
      obtain ⟨rfl, rfl, rfl⟩ := WRes.done.inj h
      exact ⟨Nat.zero_le _, rfl, rfl, Wrote.nil f _⟩
    · intro st' e h
      cases h
  | succ fuel ih =>
    intro n st buf written hn
    rw [writeLoop]
    by_cases h0 : n = 0
    · subst h0
      simp only [if_true]
      constructor
      · intro st' buf' w h
        obtain ⟨rfl, rfl, rfl⟩ := WRes.done.inj h
        exact ⟨Nat.zero_le _, rfl, rfl, Wrote.nil f _⟩
      · intro st' e h
        cases h
    · rw [if_neg h0]
      cases hw : env.write st.clock with
      | error e₀ =>
        simp only
        constructor
        · intro st' buf' w h
          cases h
        · intro st' e h
          obtain ⟨rfl, rfl⟩ := WRes.err.inj h
          exact ⟨[], wrote_tick f st⟩
      | ok k =>
        have hret : min n (max 1 k) ≤ n := Nat.min_le_left _ _
        have hpos : 0 < min n (max 1 k) := by omega
        simp only
        generalize min n (max 1 k) = ret at hret hpos ⊢
        by_cases hlen : buf.length < ret
        · rw [if_pos hlen]
          constructor
          · intro st' buf' w h
            cases h
          · intro st' e h
            cases h
        · rw [if_neg hlen]
          obtain ⟨hdone, herr⟩ := ih (n - ret) (st.tick.append f (buf.take ret)) (buf.drop ret)
            (written + ret) (by omega)
          constructor
          · intro st' buf' w h
            obtain ⟨hle, hbuf, hwr, hwrote⟩ := hdone st' buf' w h
            rw [length_drop] at hle
            have hsplit : buf.take n = buf.take ret ++ (buf.drop ret).take (n - ret) := by
              rw [← take_add, Nat.add_sub_cancel' hret]
            refine ⟨by omega, ?_, by omega, ?_⟩
            · rw [hbuf, drop_drop, Nat.add_sub_cancel' hret]
            · rw [hsplit]
              exact (wrote_append st f _).trans hwrote
          · intro st' e h
            obtain ⟨bs, hbs⟩ := herr st' e h
            exact ⟨_, (wrote_append st f _).trans hbs⟩

/-- The two write loops of a message. -/
def storeData (env : Env Key R) (st : State R) (req : Req) (buf : List UInt8) : WRes R :=
  let sLen := sigShare req.siglen req.written buf.length
  match writeLoop env (.tmpSig req.uid req.prio req.token) sLen sLen st buf req.written with
  | .done st buf written =>
    writeLoop env (.tmp req.uid req.prio req.token) buf.length buf.length st buf written
  | .err st e => .err st e
  | .overread => .overread

/-- Both files have received their share of `buf`. -/
structure Stored (st : State R) (req : Req) (buf : List UInt8) (st' : State R) : Prop where
  fits : sigShare req.siglen req.written buf.length ≤ buf.length
  pdb : st'.pdb = st.pdb
  preqs : st'.preqs = st.preqs
  other : ∀ g, g ≠ .tmp req.uid req.prio req.token → g ≠ .tmpSig req.uid req.prio req.token →
    st'.files g = st.files g
  sig : ∀ c, st.files (.tmpSig req.uid req.prio req.token) = some c →
    st'.files (.tmpSig req.uid req.prio req.token) =
      some (c ++ buf.take (sigShare req.siglen req.written buf.length))
  pol : ∀ c, st.files (.tmp req.uid req.prio req.token) = some c →
    st'.files (.tmp req.uid req.prio req.token) =
      some (c ++ buf.drop (sigShare req.siglen req.written buf.length))

theorem Stored.frame (h : Stored st req buf st') : Frame req.token st st' :=
  ⟨h.pdb, fun g hg => h.other g (fun hgf => hg (by rw [hgf]; rfl)) (fun hgf => hg (by rw [hgf]; rfl))⟩

theorem storeData_done {buf' : List UInt8} {w : ℕ} (h : storeData env st req buf = .done st' buf' w) :
    Stored st req buf st' ∧ w = req.written + buf.length := by
  rw [storeData] at h
  obtain ⟨hdone₁, -⟩ := writeLoop_cases env (.tmpSig req.uid req.prio req.token)
    (sigShare req.siglen req.written buf.length) (sigShare req.siglen req.written buf.length) st buf
    req.written (Nat.le_refl _)
  cases h₁ : writeLoop env (.tmpSig req.uid req.prio req.token)
    (sigShare req.siglen req.written buf.length) (sigShare req.siglen req.written buf.length) st buf
    req.written with
  | err st₁ e => simp [h₁] at h
  | overread => simp [h₁] at h
  | done st₁ buf₁ w₁ =>
    simp only [h₁] at h
    obtain ⟨hfits, rfl, rfl, hw₁⟩ := hdone₁ st₁ buf₁ w₁ h₁
    obtain ⟨hdone₂, -⟩ := writeLoop_cases env (.tmp req.uid req.prio req.token)
      (buf.drop (sigShare req.siglen req.written buf.length)).length
      (buf.drop (sigShare req.siglen req.written buf.length)).length st₁
      (buf.drop (sigShare req.siglen req.written buf.length))
      (req.written + sigShare req.siglen req.written buf.length) (Nat.le_refl _)
    obtain ⟨-, -, rfl, hw₂⟩ := hdone₂ st' buf' w h
    rw [take_length] at hw₂
    refine ⟨⟨hfits, hw₂.pdb.trans hw₁.pdb, hw₂.preqs.trans hw₁.preqs, ?_, ?_, ?_⟩, ?_⟩
    · intro g hg hg'
      rw [hw₂.other g hg, hw₁.other g hg']
    · intro c hc
      rw [hw₂.other _ (by simp), hw₁.file c hc]
    · intro c hc
      rw [hw₂.file c (by rw [hw₁.other _ (by simp), hc])]
    · rw [length_drop]
      omega

theorem storeData_err {e : ℕ} (h : storeData env st req buf = .err st' e) :
    Frame req.token st st' ∧ st'.preqs = st.preqs := by
  rw [storeData] at h
  obtain ⟨hdone₁, herr₁⟩ := writeLoop_cases env (.tmpSig req.uid req.prio req.token)
    (sigShare req.siglen req.written buf.length) (sigShare req.siglen req.written buf.length) st buf
    req.written (Nat.le_refl _)
  cases h₁ : writeLoop env (.tmpSig req.uid req.prio req.token)
    (sigShare req.siglen req.written buf.length) (sigShare req.siglen req.written buf.length) st buf
    req.written with
  | overread => simp [h₁] at h
  | err st₁ e₁ =>
    simp only [h₁, WRes.err.injEq] at h
    obtain ⟨rfl, rfl⟩ := h
    obtain ⟨bs, hbs⟩ := herr₁ _ _ h₁
    exact ⟨hbs.frame rfl, hbs.preqs⟩
  | done st₁ buf₁ w₁ =>
    simp only [h₁] at h
    obtain ⟨-, -, -, hw₁⟩ := hdone₁ st₁ buf₁ w₁ h₁
    obtain ⟨-, herr₂⟩ := writeLoop_cases env (.tmp req.uid req.prio req.token) buf₁.length buf₁.length
      st₁ buf₁ w₁ (Nat.le_refl _)
    obtain ⟨bs, hbs⟩ := herr₂ st' e h
    exact ⟨(hw₁.frame rfl).trans (hbs.frame rfl), hbs.preqs.trans hw₁.preqs⟩

/-! ### Accepted messages -/

/-- The size limit of the configuration. -/
def TooBig (env : Env Key R) (req : Req) (buf : List UInt8) : Prop :=
  0 < env.policysize ∧ env.policysize < req.written + buf.length

theorem setData_eq (env : Env Key R) (st : State R) (req : Req) (p : PolRequest) (key0 : Option Key)
    (buf : List UInt8) (hb : ¬ TooBig env req buf) (ha : req.authUid = p.authUid) :
    setData env st req p key0 buf = match storeData env st req buf with
      | .overread => .undef
      | .err st e => reply st req p.token e
      | .done st _ written =>
        if p.fin then finish env (st.setReq { req with written := written })
          { req with written := written } key0
        else .ret none (st.setReq { req with written := written }) := by
  rw [TooBig] at hb
  simp only [setData, if_neg hb, if_neg (not_not_intro ha), storeData, sigShare]
  cases writeLoop env (.tmpSig req.uid req.prio req.token) _ _ st buf req.written with
  | overread => rfl
  | err st e => rfl
  | done st buf written => rfl

/-- `open` of the temporary files in the START branch; the signature file only if there is one. -/
def openFiles (env : Env Key R) (st : State R) (uid prio token siglen : ℕ) :
    Except ℕ (State R) × State R :=
  match (if 0 < siglen then openExcl env st (.tmpSig uid prio token) else (.ok st, st)) with
  | (.error e, st) => (.error e, st)
  | (.ok st, _) => openExcl env st (.tmp uid prio token)

/-- The request object as a START message creates it. -/
def newReq (p : PolRequest) : Req :=
  ⟨p.token, be32 p.data 0, p.authUid, none, none, 0, 0, 0, 0, none, none⟩

/-- The message is accepted: its bytes are stored, the END branch would see the state and the request,
    and `key` is the local variable of this call. -/
inductive Accepts (env : Env Key R) (st : State R) (p : PolRequest) :
    State R → Req → Option Key → Prop where
  | more {req : Req} {st' : State R} {buf : List UInt8} {w : ℕ}
    (find : pePolicyRequestFind st p.token = some req) (start : p.start = false)
    (auth : req.authUid = p.authUid) (ptype : req.ptype = ptypeSetByUid)
    (size : ¬ TooBig env req p.data) (data : storeData env st req p.data = .done st' buf w) :
    Accepts env st p (st'.setReq { req with written := w }) { req with written := w } none
  | start {st₀ st₁ st' : State R} {buf : List UInt8} {w : ℕ}
    (find : pePolicyRequestFind st p.token = none) (start : p.start = true)
    (len : sizeSetByUid ≤ p.data.length) (ptype : be32 p.data 0 = ptypeSetByUid)
    (prio : be32 p.data 8 < prioMax)
    (auth : p.authUid = 0 ∨ be32 p.data 4 = p.authUid ∧ be32 p.data 8 ≠ prioAdmin)
    (key : ¬ ((env.cert (be32 p.data 4) (be32 p.data 8)).isSome ∧ be16 p.data 12 = 0))
    (files : openFiles env { st with preqs := newReq p :: st.preqs } (be32 p.data 4) (be32 p.data 8)
      p.token (be16 p.data 12) = (.ok st₀, st₁))
    (size : ¬ TooBig env (opened p.token p.authUid p.data) (p.data.drop sizeSetByUid))
    (data : storeData env (st₀.setReq (opened p.token p.authUid p.data))
      (opened p.token p.authUid p.data) (p.data.drop sizeSetByUid) = .done st' buf w) :
    Accepts env st p (st'.setReq { opened p.token p.authUid p.data with written := w })
      { opened p.token p.authUid p.data with written := w } (env.cert (be32 p.data 4) (be32 p.data 8))

/-- A message of a SETBYUID request that is refused: the request is dropped. -/
theorem setData_dropped {key0 : Option Key} (hn : req.Named) (hframe : Frame req.token st₁ st)
    (hpre : st.preqs.filter (fun r => r.token ≠ req.token) = st₁.preqs.filter (fun r => r.token ≠ req.token))
    (h : setData env st req p key0 buf = .ret r st') : (¬ TooBig env req buf ∧ req.authUid = p.authUid ∧
      ∃ st₂ buf₂ w, storeData env st req buf = .done st₂ buf₂ w) ∨ Dropped req.token st₁ st' := by
  by_cases hb : TooBig env req buf
  · rw [TooBig] at hb
    rw [setData, if_pos hb] at h
    obtain ⟨-, rfl⟩ := Outcome.ret.inj h
    exact .inr (dropped_put hn hframe hpre)
  · by_cases ha : req.authUid = p.authUid
    · rw [setData_eq env st req p key0 buf hb ha] at h
      cases hs : storeData env st req buf with
      | done st₂ buf₂ w => exact .inl ⟨hb, ha, st₂, buf₂, w, rfl⟩
      | overread =>
        rw [hs] at h
        cases h
      | err st₂ e =>
        rw [hs] at h
        obtain ⟨-, rfl⟩ := Outcome.ret.inj h
        obtain ⟨hf, hp⟩ := storeData_err hs
        exact .inr (dropped_put hn (hframe.trans hf) (by rw [hp, hpre]))
    · rw [TooBig] at hb
      rw [setData, if_neg hb, if_pos ha] at h
      obtain ⟨-, rfl⟩ := Outcome.ret.inj h
      exact .inr (dropped_put hn hframe hpre)

/-! ### The START branch -/

theorem openExcl_cases {st₀ : State R} (hf : f.token = some t) :
    (∀ st₁, openExcl env st f = (.ok st₀, st₁) → Frame t st st₀ ∧ st₀.preqs = st.preqs ∧
      st₀.files f = some [] ∧ ∀ g, g ≠ f → st₀.files g = st.files g) ∧
    ∀ e, openExcl env st f = (.error e, st₀) → Frame t st st₀ ∧ st₀.preqs = st.preqs := by
  rw [openExcl]
  cases env.openErr st.clock with
  | some e₀ =>
    refine ⟨fun st₁ h => ?_, fun e h => ?_⟩
    · cases h
    · cases h
      exact ⟨⟨rfl, fun _ _ => rfl⟩, rfl⟩
  | none =>
    simp only
    split
    · refine ⟨fun st₁ h => ?_, fun e h => ?_⟩
      · cases h
      · cases h
        exact ⟨⟨rfl, fun _ _ => rfl⟩, rfl⟩
    · refine ⟨fun st₁ h => ?_, fun e h => ?_⟩
      · obtain ⟨h, -⟩ := Prod.mk.inj h
        cases h
        refine ⟨⟨rfl, (frame_put _ hf _).files⟩, rfl, ?_, ?_⟩
        · simp [State.put]
        · intro g hg
          simp [State.put, State.tick, hg]
      · cases h

theorem openFiles_cases {st₀ : State R} {uid prio token siglen : ℕ} :
    (∀ st₁, openFiles env st uid prio token siglen = (.ok st₀, st₁) →
      Frame token st st₀ ∧ st₀.preqs = st.preqs ∧ st₀.files (.tmp uid prio token) = some [] ∧
      (0 < siglen → st₀.files (.tmpSig uid prio token) = some [])) ∧
    ∀ e, openFiles env st uid prio token siglen = (.error e, st₀) → Frame token st st₀ ∧ st₀.preqs = st.preqs := by
  have hsig (st' : State R) := @openExcl_cases _ _ token st (.tmpSig uid prio token) env st' rfl
  have htmp (st₂ st' : State R) := @openExcl_cases _ _ token st₂ (.tmp uid prio token) env st' rfl
  rw [openFiles]
  by_cases hs : 0 < siglen
  · simp only [if_pos hs]
    cases ho : openExcl env st (.tmpSig uid prio token) with
    | mk res st₂ =>
      cases res with
      | error e₀ =>
        refine ⟨fun st₁ h => ?_, fun e h => ?_⟩
        · cases h
        · cases h
          exact (hsig _).2 e₀ ho
      | ok st₃ =>
        obtain ⟨hf, hp, hempty, -⟩ := (hsig st₃).1 st₂ ho
        refine ⟨fun st₁ h => ?_, fun e h => ?_⟩
        · obtain ⟨hf', hp', hempty', hother⟩ := (htmp st₃ st₀).1 st₁ h
          exact ⟨hf.trans hf', hp'.trans hp, hempty', fun _ => by rw [hother _ (by simp), hempty]⟩
        · obtain ⟨hf', hp'⟩ := (htmp st₃ st₀).2 e h
          exact ⟨hf.trans hf', hp'.trans hp⟩
  · simp only [if_neg hs]
    refine ⟨fun st₁ h => ?_, fun e h => (htmp st st₀).2 e h⟩
    obtain ⟨hf, hp, hempty, -⟩ := (htmp st st₀).1 st₁ h
    exact ⟨hf, hp, hempty, fun h => absurd h hs⟩

/-- The checks of the START branch behind which the files are opened. -/
structure Permitted (env : Env Key R) (p : PolRequest) : Prop where
  len : sizeSetByUid ≤ p.data.length
  prio : be32 p.data 8 < prioMax
  auth : p.authUid = 0 ∨ be32 p.data 4 = p.authUid ∧ be32 p.data 8 ≠ prioAdmin
  key : ¬ ((env.cert (be32 p.data 4) (be32 p.data 8)).isSome ∧ be16 p.data 12 = 0)

theorem setStart_permitted (h : Permitted env p) (hset : be32 p.data 0 = ptypeSetByUid) (st : State R) :
    (∀ st₀ st₁, openFiles env st (be32 p.data 4) (be32 p.data 8) p.token (be16 p.data 12) =
        (.ok st₀, st₁) → setStart env st (newReq p) p =
      setData env (st₀.setReq (opened p.token p.authUid p.data)) (opened p.token p.authUid p.data) p
        (env.cert (be32 p.data 4) (be32 p.data 8)) (p.data.drop sizeSetByUid)) ∧
    ∀ st₀ e, openFiles env st (be32 p.data 4) (be32 p.data 8) p.token (be16 p.data 12) =
        (.error e, st₀) → ∃ req : Req, req.token = p.token ∧ req.Named ∧
      setStart env st (newReq p) p = reply st₀ req p.token e := by
  have hperm : ¬ (be32 p.data 4 ≠ p.authUid ∧ p.authUid ≠ 0) := by
    rcases h.auth with h | h <;> simp [h]
  have hadm : ¬ (be32 p.data 8 = prioAdmin ∧ p.authUid ≠ 0) := by
    rcases h.auth with h | h <;> simp [h]
  have hnamed : ∀ f, (if 0 < be16 p.data 12 then
      some (FName.tmpSig (be32 p.data 4) (be32 p.data 8) p.token) else none) = some f →
      f.token = some p.token := by
    intro f hf
    split at hf
    · rw [← Option.some.inj hf]
      rfl
    · cases hf
  simp only [setStart, newReq, if_neg (Nat.not_lt.mpr h.len), if_neg (Nat.not_le.mpr h.prio),
    if_neg hperm, if_neg hadm, if_neg h.key, hset]
  simp only [openFiles]
  generalize (if 0 < be16 p.data 12 then
    openExcl env st (.tmpSig (be32 p.data 4) (be32 p.data 8) p.token) else (.ok st, st)) = o
  obtain ⟨res, st₂⟩ := o
  cases res with
  | error e₀ =>
    refine ⟨fun st₀ st₁ ho => ?_, fun st₀ e ho => ?_⟩
    · cases ho
    · obtain ⟨he, rfl⟩ := Prod.mk.inj ho
      cases he
      refine ⟨_, ?_, ⟨?_, ?_⟩, rfl⟩
      · rfl
      · rintro f ⟨⟩
        rfl
      · exact hnamed
  | ok st₃ =>
    simp only
    cases ho' : openExcl env st₃ (.tmp (be32 p.data 4) (be32 p.data 8) p.token) with
    | mk res st₄ =>
      refine ⟨fun st₀ st₁ ho => ?_, fun st₀ e ho => ?_⟩
      · cases ho
        rfl
      · cases ho
        refine ⟨_, ?_, ⟨?_, ?_⟩, rfl⟩
        · rfl
        · rintro f ⟨⟩
          rfl
        · exact hnamed

theorem opened_named (token authUid : ℕ) (hdr : List UInt8) : (opened token authUid hdr).Named := by
  constructor
  · rintro f ⟨⟩
    rfl
  · intro f hf
    simp only [opened] at hf
    split at hf
    · rw [← Option.some.inj hf]
      rfl
    · cases hf

/-! ### The dispatcher -/

theorem filter_of_find_none (h : pePolicyRequestFind st t = none) :
    st.preqs.filter (fun r => r.token ≠ t) = st.preqs := by
  rw [pePolicyRequestFind, find?_eq_none] at h
  exact filter_eq_self.mpr (by simpa using h)

theorem token_of_find (h : pePolicyRequestFind st t = some req) : req ∈ st.preqs ∧ req.token = t :=
  ⟨mem_of_find?_eq_some h, by simpa using find?_some h⟩

theorem filter_setReq (st : State R) (ht : req.token = t) :
    (st.setReq req).preqs.filter (fun r => r.token ≠ t) = st.preqs.filter (fun r => r.token ≠ t) := by
  subst ht
  simp only [State.setReq]
  induction st.preqs with
  | nil => rfl
  | cons r rs ih =>
    by_cases hr : r.token = req.token
    · simp [hr] at ih ⊢
      exact ih
    · simp [hr] at ih ⊢
      exact ih

/-- A GETBYUID request never stays open. -/
theorem getByUid_dropped (hn : req.Named) (htok : req.token = p.token) (hframe : Frame p.token st₁ st)
    (hpre : st.preqs.filter (fun r => r.token ≠ p.token) = st₁.preqs.filter (fun r => r.token ≠ p.token))
    (h : getByUid env st req p = .ret r st') : Dropped p.token st₁ st' := by
  have hput : st' = pePolicyRequestPut st req := by
    rw [getByUid] at h
    split at h
    · exact (Outcome.ret.inj h).2.symm
    · dsimp only at h
      split at h
      · exact (Outcome.ret.inj h).2.symm
      · split at h
        · exact (Outcome.ret.inj h).2.symm
        · split at h
          · exact (Outcome.ret.inj h).2.symm
          · split at h <;> exact (Outcome.ret.inj h).2.symm
  rw [hput, ← htok]
  rw [← htok] at hframe hpre
  exact dropped_put hn hframe hpre

/-- An accepted message goes on to the END branch or leaves the request open. -/
theorem dispatch_accepts (h : Accepts env st p st₁ req key) :
    peDispatchPolicy env st (.request p) =
      if p.fin then finish env st₁ req key else .ret none st₁ := by
  cases h with
  | @more req st' buf w find start auth ptype size data =>
    have hget : ptypeSetByUid ≠ ptypeGetByUid := by decide
    have hd : peDispatchPolicy env st (.request p) = setData env st req p none p.data := by
      simp only [peDispatchPolicy, find, start, auth, ptype, hget, Bool.false_eq_true, if_false,
        if_true, ne_eq, not_true_eq_false]
    rw [hd, setData_eq env st _ p none p.data size auth, data]
  | start find start len ptype prio auth key files size data =>
    have hget : ptypeSetByUid ≠ ptypeGetByUid := by decide
    have hgen : ¬ p.data.length < sizeGeneric := by
      simp only [sizeSetByUid, sizeGeneric] at len ⊢
      omega
    have hstart := (setStart_permitted ⟨len, prio, auth, key⟩ ptype
      { st with preqs := newReq p :: st.preqs }).1 _ _ files
    simp only [peDispatchPolicy, find, start, ptype, hget, hgen, Bool.true_eq_false, if_false, if_true]
    rw [newReq, ptype] at hstart
    rw [hstart, setData_eq env _ _ p _ _ size rfl, data]

theorem newReq_named (p : PolRequest) : (newReq p).Named :=
  ⟨by simp [newReq], by simp [newReq]⟩

/-- A START message that is not permitted. -/
theorem setStart_dropped (hframe : Frame p.token st₁ st)
    (hpre : st.preqs.filter (fun r => r.token ≠ p.token) = st₁.preqs.filter (fun r => r.token ≠ p.token))
    (h : setStart env st (newReq p) p = .ret r st') : Permitted env p ∨ Dropped p.token st₁ st' := by
  have hreply {req : Req} {e : ℕ} (htok : req.token = p.token) (hnone : req.tmpname = none)
      (hsig : req.tmpsig = none) (h : reply st (some req) p.token e = .ret r st') :
      Dropped p.token st₁ st' := by
    obtain ⟨-, rfl⟩ := Outcome.ret.inj h
    rw [← htok] at hframe hpre ⊢
    exact dropped_put ⟨by simp [hnone], by simp [hsig]⟩ hframe hpre
  rw [setStart] at h
  split at h
  · exact .inr (hreply rfl rfl rfl h)
  · rename_i hlen
    dsimp only at h
    split at h
    · exact .inr (hreply rfl rfl rfl h)
    · rename_i hprio
      split at h
      · exact .inr (hreply rfl rfl rfl h)
      · rename_i hperm
        split at h
        · exact .inr (hreply rfl rfl rfl h)
        · rename_i hadm
          split at h
          · exact .inr (hreply rfl rfl rfl h)
          · rename_i hkey
            refine .inl ⟨Nat.not_lt.mp hlen, Nat.not_le.mp hprio, ?_, hkey⟩
            simp only [newReq] at hperm hadm
            by_cases h0 : p.authUid = 0
            · exact .inl h0
            · refine .inr ⟨?_, fun hc => hadm ⟨hc, h0⟩⟩
              by_contra hne
              exact hperm ⟨hne, h0⟩

/-- A START message that is permitted: the files are opened and the data is stored, or the request is
    dropped. -/
theorem start_cases (hfind : pePolicyRequestFind st p.token = none) (hstart : p.start = true)
    (hset : be32 p.data 0 = ptypeSetByUid) (hp : Permitted env p)
    (h : setStart env { st with preqs := newReq p :: st.preqs } (newReq p) p = .ret r st') :
    (∃ st₁ req key, Accepts env st p st₁ req key) ∨ Dropped p.token st st' := by
  have hpre : (newReq p :: st.preqs).filter (fun r => r.token ≠ p.token) =
      st.preqs.filter (fun r => r.token ≠ p.token) := by
    simp [newReq]
  have hframe : Frame p.token st { st with preqs := newReq p :: st.preqs } :=
    ⟨rfl, fun _ _ => rfl⟩
  obtain ⟨hok, herr⟩ := setStart_permitted hp hset { st with preqs := newReq p :: st.preqs }
  cases hfiles : openFiles env { st with preqs := newReq p :: st.preqs } (be32 p.data 4)
    (be32 p.data 8) p.token (be16 p.data 12) with
  | mk res st₁ =>
    cases res with
    | error e =>
      obtain ⟨hf, hpq⟩ := openFiles_cases.2 e hfiles
      obtain ⟨req, htok, hnamed, heq⟩ := herr st₁ e hfiles
      rw [heq] at h
      obtain ⟨-, rfl⟩ := Outcome.ret.inj h
      rw [← htok] at hframe hpre hf ⊢
      exact .inr (dropped_put hnamed (hframe.trans hf) (by rw [hpq]; exact hpre))
    | ok st₀ =>
      obtain ⟨hf, hpq, -, -⟩ := openFiles_cases.1 st₁ hfiles
      rw [hok st₀ st₁ hfiles] at h
      have hf' : Frame p.token st (st₀.setReq (opened p.token p.authUid p.data)) :=
        (hframe.trans hf).trans ⟨rfl, fun _ _ => rfl⟩
      have hpre' : (st₀.setReq (opened p.token p.authUid p.data)).preqs.filter
          (fun r => r.token ≠ p.token) = st₀.preqs.filter (fun r => r.token ≠ p.token) :=
        filter_setReq st₀ rfl
      rcases setData_dropped (opened_named _ _ _) hf' (hpre'.trans (by rw [hpq]; exact hpre)) h with
        ⟨hsize, -, st₂, buf₂, w, hdata⟩ | hd
      · exact .inl ⟨_, _, _, .start hfind hstart hp.len hset hp.prio hp.auth hp.key hfiles hsize hdata⟩
      · exact .inr hd

/-- A message is accepted or the request under its token is dropped. -/
theorem dispatch_cases (hn : ∀ q ∈ st.preqs, q.Named) (h : peDispatchPolicy env st (.request p) = .ret r st') :
    (∃ st₁ req key, Accepts env st p st₁ req key) ∨ Dropped p.token st st' := by
  cases hfind : pePolicyRequestFind st p.token with
  | some req =>
    obtain ⟨hmem, htok⟩ := token_of_find hfind
    have hreply {st₀ : State R} {e : ℕ} (hs : st₀ = st)
        (h : reply st₀ (some req) p.token e = .ret r st') : Dropped p.token st st' := by
      obtain ⟨-, rfl⟩ := Outcome.ret.inj h
      subst hs
      rw [← htok]
      exact dropped_put (hn req hmem) (Frame.refl _ _) rfl
    simp only [peDispatchPolicy, hfind] at h
    split at h
    · exact .inr (hreply rfl h)
    · rename_i hstart
      split at h
      · exact .inr (hreply rfl h)
      · rename_i hauth
        split at h
        · exact .inr (getByUid_dropped (hn req hmem) htok (Frame.refl _ _) rfl h)
        · split at h
          · rename_i hset
            rcases setData_dropped (hn req hmem) (Frame.refl _ st) rfl h with
              ⟨hsize, ha, st₂, buf₂, w, hdata⟩ | hd
            · exact .inl ⟨_, _, _, .more hfind (by simpa using hstart) ha hset hsize hdata⟩
            · exact .inr (htok ▸ hd)
          · exact .inr (hreply rfl h)
  | none =>
    have hkeep := filter_of_find_none hfind
    simp only [peDispatchPolicy, hfind] at h
    split at h
    · obtain ⟨-, rfl⟩ := Outcome.ret.inj h
      exact .inr ⟨Frame.refl _ _, hkeep.symm⟩
    · rename_i hstart
      split at h
      · obtain ⟨-, rfl⟩ := Outcome.ret.inj h
        exact .inr ⟨Frame.refl _ _, hkeep.symm⟩
      · have hfresh : ({ st with preqs := newReq p :: st.preqs } : State R).preqs.filter
            (fun r => r.token ≠ p.token) = st.preqs.filter (fun r => r.token ≠ p.token) := by
          simp [newReq]
        have hframe : Frame p.token st { st with preqs := newReq p :: st.preqs } :=
          ⟨rfl, fun _ _ => rfl⟩
        split at h
        · exact .inr (getByUid_dropped (newReq_named p) rfl hframe hfresh h)
        · split at h
          · rename_i hset
            rcases setStart_dropped hframe hfresh h with hp | hd
            · exact start_cases hfind (by simpa using hstart) hset hp h
            · exact .inr hd
          · obtain ⟨-, rfl⟩ := Outcome.ret.inj h
            exact .inr (dropped_put (newReq_named p) hframe hfresh)

/-- An abort drops the request of its token. -/
theorem abort_dropped {token : ℕ} (hn : ∀ q ∈ st.preqs, q.Named)
    (h : peDispatchPolicy env st (.abort token) = .ret r st') : r = none ∧ Dropped token st st' := by
  simp only [peDispatchPolicy] at h
  split at h
  · rename_i hfind
    obtain ⟨rfl, rfl⟩ := Outcome.ret.inj h
    exact ⟨rfl, Frame.refl _ _, (filter_of_find_none hfind).symm⟩
  · rename_i req hfind
    obtain ⟨rfl, rfl⟩ := Outcome.ret.inj h
    obtain ⟨hmem, rfl⟩ := token_of_find hfind
    exact ⟨rfl, dropped_put (hn req hmem) (Frame.refl _ _) rfl⟩

/-! ### The END branch -/

/-- How the END branch ends, with the number of system calls and the errno of a failure: nothing has
    been renamed, only the policy has been renamed, or the ruleset is given to `pe_user_insert_rs`. -/
inductive Commit (R : Type) where
  | stopped (calls errno : ℕ)
  | half (calls errno : ℕ)
  | installed (rs : R)

/-- The uploaded policy and its signature as they are in the temporary files. -/
def policyFile (st : State R) (req : Req) : List UInt8 :=
  (st.files (.tmp req.uid req.prio req.token)).getD []

def sigFile (st : State R) (req : Req) : List UInt8 :=
  (st.files (.tmpSig req.uid req.prio req.token)).getD []

/-- The key that the END branch verifies with. -/
def commitKey (env : Env Key R) (req : Req) (key0 : Option Key) : Option Key :=
  if 0 < req.siglen then env.cert req.uid req.prio else key0

/-- The system calls behind a successful parse. -/
def commitFiles (env : Env Key R) (clock siglen : ℕ) (rs : R) : Commit R :=
  match env.fsyncErr clock with
  | some e => .stopped 1 e
  | none => match env.renameErr (clock + 1) with
    | some e => .stopped 2 e
    | none =>
      if siglen = 0 then .installed rs
      else match env.fsyncErr (clock + 2) with
        | some e => .half 3 e
        | none => match env.renameErr (clock + 3) with
          | some e => .half 4 e
          | none => .installed rs

/-- There is a key, and the signature is not valid. -/
def badSignature (env : Env Key R) (key : Option Key) (policy sig : List UInt8) : Bool :=
  match key with
  | some k => !env.verify k policy sig
  | none => false

/-- The decisions of the END branch. -/
def commit (env : Env Key R) (st : State R) (req : Req) (key0 : Option Key) : Commit R :=
  if badSignature env (commitKey env req key0) (policyFile st req) (sigFile st req) then
    .stopped 0 einval
  else match env.parse (policyFile st req) (req.prio ≠ prioUser1) with
    | none => .stopped 0 einval
    | some rs => commitFiles env st.clock req.siglen rs

def State.ticks (st : State R) (n : ℕ) : State R := { st with clock := st.clock + n }

/-- `rename` of the policy file. -/
def State.renamePolicy (st : State R) (req : Req) : State R :=
  (st.put (.real req.uid req.prio) (some (policyFile st req))).put (.tmp req.uid req.prio req.token) none

/-- `rename` of the signature file, if there is one. -/
def State.renameSig (st : State R) (req : Req) : State R :=
  if req.siglen = 0 then st
  else (st.put (.realSig req.uid req.prio) (some (sigFile st req))).put
    (.tmpSig req.uid req.prio req.token) none

/-- `pe_user_insert_rs`. -/
def State.insertRs (st : State R) (uid prio : ℕ) (rs : R) : State R :=
  { st with pdb := fun u p => if u = uid ∧ p = prio then some rs else st.pdb u p }

@[simp] theorem clock_tick (st : State R) : st.tick.clock = st.clock + 1 := rfl

@[simp] theorem clock_put (st : State R) (f : FName) (c : Option (List UInt8)) : (st.put f c).clock = st.clock := rfl

theorem sigFile_renamePolicy (st : State R) (req : Req) : sigFile (st.renamePolicy req) req = sigFile st req := by
  simp [sigFile, State.renamePolicy, State.put]

/-- `finish` takes the decisions of `commit` and replies. -/
theorem finish_eq (env : Env Key R) (st : State R) (req : Req) (key0 : Option Key) :
    finish env st req key0 = match commit env st req key0 with
      | .stopped n e => reply (st.ticks n) req req.token e
      | .half n e => reply ((st.ticks n).renamePolicy req) req req.token e
      | .installed rs => reply ((((st.ticks (if req.siglen = 0 then 2 else 4)).renamePolicy
          req).renameSig req).insertRs req.uid req.prio rs) req req.token 0 := by
  have hsig : sigFile ((st.ticks 4).renamePolicy req) req = sigFile st req :=
    sigFile_renamePolicy (st.ticks 4) req
  rw [finish, commit]
  simp only [← policyFile.eq_def, ← sigFile.eq_def, ← commitKey.eq_def, clock_tick, clock_put]
  change (if badSignature env (commitKey env req key0) (policyFile st req) (sigFile st req) = true
    then _ else _) = _
  cases badSignature env (commitKey env req key0) (policyFile st req) (sigFile st req) with
  | true => rfl
  | false =>
    simp only [Bool.false_eq_true, if_false]
    cases env.parse (policyFile st req) (req.prio ≠ prioUser1) with
    | none => rfl
    | some rs =>
      simp only [commitFiles]
      cases env.fsyncErr st.clock with
      | some e => rfl
      | none =>
        cases env.renameErr (st.clock + 1) with
        | some e => rfl
        | none =>
          by_cases hs : req.siglen = 0
          · simp only [hs, if_true, State.renameSig]
            rfl
          · simp only [hs, if_false, State.renameSig]
            cases env.fsyncErr (st.clock + 2) with
            | some e => rfl
            | none =>
              cases env.renameErr (st.clock + 3) with
              | some e => rfl
              | none =>
                simp only [hsig]
                rfl

/-! ### What a step changes -/

/-- Rulesets, policy files and signature files are as before. -/
structure SameInstalled (st st' : State R) : Prop where
  pdb : st'.pdb = st.pdb
  real : ∀ uid prio, st'.files (.real uid prio) = st.files (.real uid prio)
  realSig : ∀ uid prio, st'.files (.realSig uid prio) = st.files (.realSig uid prio)

theorem SameInstalled.refl (st : State R) : SameInstalled st st :=
  ⟨rfl, fun _ _ => rfl, fun _ _ => rfl⟩

theorem SameInstalled.trans (h : SameInstalled st₁ st₂) (h' : SameInstalled st₂ st₃) : SameInstalled st₁ st₃ :=
  ⟨h'.pdb.trans h.pdb, fun u p => (h'.real u p).trans (h.real u p),
    fun u p => (h'.realSig u p).trans (h.realSig u p)⟩

theorem Frame.sameInstalled (h : Frame t st st') : SameInstalled st st' :=
  ⟨h.pdb, fun _ _ => h.files _ (by simp [FName.token]), fun _ _ => h.files _ (by simp [FName.token])⟩

/-- `reply` behind the END branch drops the request. -/
theorem put_dropped (hn : req.Named) : Dropped req.token st (pePolicyRequestPut st req) :=
  dropped_put hn (Frame.refl _ _) rfl

theorem Accepts.named (hn : ∀ q ∈ st.preqs, q.Named) (h : Accepts env st p st₁ req key) :
    req.Named ∧ req.token = p.token := by
  cases h with
  | @more req _ _ _ find start auth ptype size data =>
    obtain ⟨hmem, htok⟩ := token_of_find find
    have hreq := hn req hmem
    exact ⟨⟨hreq.1, hreq.2⟩, htok⟩
  | start find start len ptype prio auth key files size data =>
    exact ⟨opened_named p.token p.authUid p.data, rfl⟩

/-- An accepted message changes the files of its token only. -/
theorem Accepts.frame (h : Accepts env st p st₁ req key) : Frame p.token st st₁ := by
  cases h with
  | more find start auth ptype size data =>
    obtain ⟨-, htok⟩ := token_of_find find
    have hf := (storeData_done data).1.frame
    rw [htok] at hf
    exact hf.trans ⟨rfl, fun _ _ => rfl⟩
  | start find start len ptype prio auth key files size data =>
    obtain ⟨hf, -, -, -⟩ := openFiles_cases.1 _ files
    have hf' := (storeData_done data).1.frame
    refine Frame.trans ?_ (hf.trans (Frame.trans ?_ (hf'.trans ⟨rfl, fun _ _ => rfl⟩)))
    · exact ⟨rfl, fun _ _ => rfl⟩
    · exact ⟨rfl, fun _ _ => rfl⟩

/-- The requests behind an accepted message: the one of its token, and the others as they were. -/
theorem Accepts.preqs (h : Accepts env st p st₁ req key) : req ∈ st₁.preqs ∧
      st₁.preqs.filter (fun r => r.token ≠ p.token) = st.preqs.filter (fun r => r.token ≠ p.token) ∧
      ∀ q ∈ st₁.preqs, q = req ∨ q ∈ st.preqs ∧ q.token ≠ p.token := by
  have hmap {l : List Req} {req : Req} : ∀ q ∈ l.map (fun r => if r.token = req.token then req else r),
      q = req ∨ q ∈ l ∧ q.token ≠ req.token := by
    intro q hq
    obtain ⟨r, hr, rfl⟩ := mem_map.mp hq
    by_cases hrt : r.token = req.token
    · simp [hrt]
    · simp [hrt, hr]
  cases h with
  | @more req st' buf w find start auth ptype size data =>
    obtain ⟨hmem, htok⟩ := token_of_find find
    have hp := (storeData_done data).1.preqs
    refine ⟨?_, ?_, ?_⟩
    · rw [State.setReq, hp]
      exact mem_map.mpr ⟨req, hmem, by simp⟩
    · refine (filter_setReq st' ?_).trans (by rw [hp])
      exact htok
    · intro q hq
      rw [State.setReq, hp] at hq
      rcases hmap q hq with hq | hq
      · exact .inl hq
      · exact .inr (by rwa [← htok])
  | @start st₀ st₂ st' buf w find start len ptype prio auth key files size data =>
    obtain ⟨-, hpq, -, -⟩ := openFiles_cases.1 _ files
    have hp := (storeData_done data).1.preqs
    have hpre : (newReq p :: st.preqs).filter (fun r => r.token ≠ p.token) =
        st.preqs.filter (fun r => r.token ≠ p.token) := by
      simp [newReq]
    refine ⟨?_, ?_, ?_⟩
    · rw [State.setReq, hp, State.setReq, hpq]
      refine mem_map.mpr ⟨opened p.token p.authUid p.data, ?_, by simp⟩
      exact mem_map.mpr ⟨newReq p, by simp, by simp [newReq, opened]⟩
    · refine (filter_setReq st' ?_).trans ?_
      · rfl
      · rw [hp]
        refine (filter_setReq st₀ ?_).trans (by rw [hpq]; exact hpre)
        rfl
    · intro q hq
      rw [State.setReq, hp] at hq
      rcases hmap q hq with hq | ⟨hq, hne⟩
      · exact .inl hq
      · refine .inr ⟨?_, hne⟩
        rw [State.setReq, hpq] at hq
        rcases hmap q hq with rfl | ⟨hq, -⟩
        · exact absurd rfl hne
        · rcases mem_cons.mp hq with rfl | hq
          · exact absurd rfl hne
          · exact hq

end Anoubis.Pe.Upload

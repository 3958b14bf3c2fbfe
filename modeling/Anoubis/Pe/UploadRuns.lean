import Anoubis.Pe.UploadSteps
import Anoubis.Lib.Run
import Anoubis.Apn.Invariant

/-! Runs of policy uploads: who installs what.

    Messages of many clients arrive in any order, and between two of them anything outside may change:
    certificates come and go, writes fail, the parser has other static state. So a run is a list of
    messages, each with the environment it is handled in.

    Every open request belongs to one session of the history: the START message that opened it, and
    behind it only continuation messages of the same user under its token. The temporary files hold
    what the messages of the session were split into.

        history = … START(token, a) … more(token, a) … more(token, a) …
                        └── session: the payloads, in order ──┘                                  -/

namespace Anoubis.Pe.Upload

open List

open Anoubis.Lib Option

variable {Key R : Type}

/-- A message and the environment in which it is handled. -/
structure Step (Key R : Type) where
  env : Env Key R
  msg : Msg

def Msg.token : Msg → ℕ
  | .request p => p.token
  | .abort t => t

/-- One call of `pe_dispatch_policy`; stuck where a message is read past its end. -/
def step (st : State R) (s : Step Key R) : Option (State R) :=
  match peDispatchPolicy s.env st s.msg with
  | .undef => none
  | .ret _ st => some st

variable {st st' : State R} {s : Step Key R} {env : Env Key R} {req : Req} {key : Option Key} {clean : Prop}
variable {h : List Msg}

theorem step_eq_some (h : step st s = some st') : ∃ r, peDispatchPolicy s.env st s.msg = .ret r st' := by
  rw [step] at h
  split at h
  · cases h
  · rename_i r st₁ heq
    exact ⟨r, by rw [heq, some.inj h]⟩

/-- `pe_dispatch_policy` calls `pe_user_insert_rs(rs, uid, prio)`. -/
def Inserts (env : Env Key R) (st : State R) (msg : Msg) (uid prio : ℕ) (rs : R) : Prop :=
  ∃ p st₁ req key, msg = .request p ∧ Accepts env st p st₁ req key ∧ p.fin = true ∧
    commit env st₁ req key = .installed rs ∧ req.uid = uid ∧ req.prio = prio

/-! ### One step -/

/-- The END branch removes the request and leaves the temporary files of other tokens alone. -/
theorem finish_requests {r : Option Reply} (hn : req.Named) (h : finish env st req key = .ret r st') :
    st'.preqs = st.preqs.filter (fun q => q.token ≠ req.token) ∧
      ∀ f t, f.token = some t → t ≠ req.token → st'.files f = st.files f := by
  have hput {st₀ : State R} {e : ℕ} (h : reply st₀ (some req) req.token e = .ret r st') (hp : st₀.preqs = st.preqs)
      (hf : ∀ f t, f.token = some t → t ≠ req.token → st₀.files f = st.files f) :
      st'.preqs = st.preqs.filter (fun q => q.token ≠ req.token) ∧
        ∀ f t, f.token = some t → t ≠ req.token → st'.files f = st.files f := by
    obtain ⟨-, rfl⟩ := Outcome.ret.inj h
    have hd := @put_dropped _ st₀ req hn
    refine ⟨by rw [hd.preqs, hp], fun f t hft ht => ?_⟩
    rw [hd.frame.files f (by rw [hft]; simpa using ht), hf f t hft ht]
  have hpol (n : ℕ) : ∀ f t, f.token = some t → t ≠ req.token →
      ((st.ticks n).renamePolicy req).files f = st.files f := by
    intro f t hft ht
    have h₁ : f ≠ .real req.uid req.prio := fun hc => by simp [hc, FName.token] at hft
    have h₂ : f ≠ .tmp req.uid req.prio req.token := by
      rintro rfl
      exact ht (some.inj hft).symm
    simp [State.renamePolicy, State.put, State.ticks, h₁, h₂]
  have hsig (st₀ : State R) : ∀ f t, f.token = some t → t ≠ req.token →
      (st₀.renameSig req).files f = st₀.files f := by
    intro f t hft ht
    have h₁ : f ≠ .realSig req.uid req.prio := fun hc => by simp [hc, FName.token] at hft
    have h₂ : f ≠ .tmpSig req.uid req.prio req.token := by
      rintro rfl
      exact ht (some.inj hft).symm
    rw [State.renameSig]
    split
    · rfl
    · simp [State.put, h₁, h₂]
  have hsigp (st₀ : State R) : (st₀.renameSig req).preqs = st₀.preqs := by
    rw [State.renameSig]
    split <;> rfl
  rw [finish_eq] at h
  split at h
  · exact hput h rfl (fun _ _ _ _ => rfl)
  · exact hput h rfl (hpol _)
  · refine hput h (hsigp _) (fun f t hft ht => ?_)
    exact (hsig _ f t hft ht).trans (hpol _ f t hft ht)

/-- What a step does to the requests and to the temporary files. -/
theorem step_requests (hn : ∀ q ∈ st.preqs, q.Named) (h : step st s = some st') :
    (∀ f t, f.token = some t → t ≠ s.msg.token → st'.files f = st.files f) ∧
      ∀ q ∈ st'.preqs, q ∈ st.preqs ∧ q.token ≠ s.msg.token ∨
        ∃ p key, s.msg = .request p ∧ p.fin = false ∧ Accepts s.env st p st' q key := by
  obtain ⟨r, hd⟩ := step_eq_some h
  have hdropped {t : ℕ} (ht : s.msg.token = t) (hd : Dropped t st st') :
      (∀ f t, f.token = some t → t ≠ s.msg.token → st'.files f = st.files f) ∧
        ∀ q ∈ st'.preqs, q ∈ st.preqs ∧ q.token ≠ s.msg.token ∨
          ∃ p key, s.msg = .request p ∧ p.fin = false ∧ Accepts s.env st p st' q key := by
    subst ht
    refine ⟨fun f t hft ht => hd.frame.files f (by rw [hft]; simpa using ht), fun q hq => .inl ?_⟩
    rw [hd.preqs, mem_filter] at hq
    exact ⟨hq.1, by simpa using hq.2⟩
  cases hm : s.msg with
  | abort t =>
    rw [hm] at hd
    rw [← hm]
    exact hdropped (by rw [hm]; rfl) (abort_dropped hn hd).2
  | request p =>
    rw [hm] at hd
    rcases dispatch_cases hn hd with ⟨st₁, req, key, hacc⟩ | hdrop
    · have htok : p.token = (Msg.request p).token := rfl
      obtain ⟨hnamed, hreq⟩ := hacc.named hn
      obtain ⟨-, -, hmem⟩ := hacc.preqs
      rw [dispatch_accepts hacc] at hd
      cases hfin : p.fin with
      | false =>
        simp only [hfin, Bool.false_eq_true, if_false] at hd
        obtain ⟨-, rfl⟩ := Outcome.ret.inj hd
        refine ⟨fun f t hft ht => ?_, fun q hq => ?_⟩
        · exact hacc.frame.files f (by rw [hft]; exact fun hc => ht (some.inj hc))
        · rcases hmem q hq with rfl | hq
          · exact .inr ⟨p, key, rfl, hfin, hacc⟩
          · exact .inl hq
      | true =>
        simp only [hfin, if_true] at hd
        obtain ⟨hp, hf⟩ := finish_requests hnamed hd
        rw [hreq] at hp hf
        refine ⟨fun f t hft ht => ?_, fun q hq => ?_⟩
        · rw [hf f t hft ht]
          exact hacc.frame.files f (by rw [hft]; exact fun hc => ht (some.inj hc))
        · rw [hp, mem_filter] at hq
          have hne : q.token ≠ p.token := by simpa using hq.2
          rcases hmem q hq.1 with rfl | hq
          · exact absurd hreq hne
          · exact .inl hq
    · rw [← hm]
      exact hdropped (by rw [hm]; rfl) hdrop

@[simp] theorem pdb_pePolicyRequestPut (st : State R) (req : Req) : (pePolicyRequestPut st req).pdb = st.pdb := by
  have h (st : State R) (f : Option FName) : (unlinkOpt st f).pdb = st.pdb := by
    cases f <;> rfl
  simp [pePolicyRequestPut, h]

@[simp] theorem pdb_renameSig (st : State R) (req : Req) : (st.renameSig req).pdb = st.pdb := by
  rw [State.renameSig]
  split <;> rfl

/-! ### Sessions -/

/-- The data of a continuation message under token `t`. -/
def chunkOf (t : ℕ) : Msg → Option (List UInt8)
  | .request q => if q.token = t then some q.data else none
  | .abort _ => none

/-- The payloads of a session: behind the header of the START message, and in the messages of its
    token. -/
def payloads (p : PolRequest) (rest : List Msg) : List (List UInt8) :=
  p.data.drop sizeSetByUid :: rest.filterMap (chunkOf p.token)

/-- The history ends with the session of the START message `p`: `p` is permitted, and behind it come
    only continuation messages of the same user under its token. -/
structure Session (h : List Msg) (p : PolRequest) (rest : List Msg) : Prop where
  split : ∃ pre, h = pre ++ .request p :: rest
  start : p.start = true
  auth : p.authUid = 0 ∨ be32 p.data 4 = p.authUid ∧ be32 p.data 8 ≠ prioAdmin
  same : ∀ m ∈ rest, m.token = p.token →
    ∃ q, m = .request q ∧ q.start = false ∧ q.authUid = p.authUid

/-- The request object of the START message `p`. -/
def Serves (req : Req) (p : PolRequest) : Prop :=
  req = { opened p.token p.authUid p.data with written := req.written }

/-- The temporary files hold what the payloads were split into. -/
def Received (st : State R) (req : Req) (cs : List (List UInt8)) : Prop :=
  ∃ a, feedAll req.siglen ⟨0, [], []⟩ cs = some a ∧ a.written = req.written ∧
    st.files (.tmp req.uid req.prio req.token) = some a.pol ∧
    (0 < req.siglen → st.files (.tmpSig req.uid req.prio req.token) = some a.sig)

/-- A request and its session. Where `clean` is asked for, no payload straddles the end of the
    signature. -/
structure Belongs (clean : Prop) (h : List Msg) (st : State R) (req : Req) (p : PolRequest)
    (rest : List Msg) : Prop where
  session : Session h p rest
  serves : Serves req p
  received : Received st req (payloads p rest)
  clean : clean → ¬ Straddles req.siglen (payloads p rest)

/-- Every open request belongs to a session. -/
def Sessions (clean : Prop) (st : State R) (h : List Msg) : Prop :=
  ∀ req ∈ st.preqs, ∃ p rest, Belongs clean h st req p rest

/-- The message does not begin strictly inside the signature of its request and reach beyond it. -/
def NoStraddle (st : State R) (s : Step Key R) : Prop :=
  ∀ p req, s.msg = .request p → pePolicyRequestFind st p.token = some req →
    ¬ (0 < req.written ∧ req.written < req.siglen ∧ req.siglen < req.written + p.data.length)

variable {p : PolRequest} {siglen : ℕ} {st₀ : State R} {steps : List (Step Key R)} {rs : R}

theorem Serves.named (h : Serves req p) : req.Named := by
  have hn := opened_named p.token p.authUid p.data
  rw [h]
  exact ⟨hn.1, hn.2⟩

theorem Sessions.named (hs : Sessions clean st h) : ∀ q ∈ st.preqs, q.Named := by
  intro q hq
  obtain ⟨p, rest, hb⟩ := hs q hq
  exact hb.serves.named

theorem feedAll_concat (siglen : ℕ) (cs : List (List UInt8)) (c : List UInt8) (a : Acc) :
    feedAll siglen a (cs ++ [c]) = (feedAll siglen a cs).bind (fun a => feed siglen a c) := by
  induction cs generalizing a with
  | nil => simp [feedAll]
  | cons d cs ih =>
    rw [cons_append, feedAll, feedAll, bind_assoc]
    exact bind_congr fun b _ => ih b

/-- The stored bytes of a message continue the split. -/
theorem Stored.received {buf : List UInt8} (h : Stored st req buf st') {a : Acc} (hw : a.written = req.written)
    (hpol : st.files (.tmp req.uid req.prio req.token) = some a.pol)
    (hsig : 0 < req.siglen → st.files (.tmpSig req.uid req.prio req.token) = some a.sig) :
    ∃ a', feed req.siglen a buf = some a' ∧ a'.written = req.written + buf.length ∧
      st'.files (.tmp req.uid req.prio req.token) = some a'.pol ∧
      (0 < req.siglen → st'.files (.tmpSig req.uid req.prio req.token) = some a'.sig) := by
  refine ⟨⟨a.written + buf.length, a.sig ++ buf.take (sigShare req.siglen req.written buf.length),
    a.pol ++ buf.drop (sigShare req.siglen req.written buf.length)⟩, ?_, ?_, h.pol _ hpol,
    fun hpos => h.sig _ (hsig hpos)⟩
  · rw [feed, hw, if_neg (not_lt.mpr h.fits)]
  · rw [hw]

theorem straddles_concat {cs : List (List UInt8)} {c : List UInt8} (h : Straddles siglen (cs ++ [c])) :
    Straddles siglen cs ∨ 0 < cs.flatten.length ∧ cs.flatten.length < siglen ∧
        siglen < cs.flatten.length + c.length := by
  obtain ⟨pre, d, post, heq, h1, h2, h3⟩ := h
  rcases eq_nil_or_concat post with rfl | ⟨post', d', rfl⟩
  · obtain ⟨rfl, hd⟩ := append_inj' heq rfl
    obtain rfl := singleton_inj.mp hd
    exact .inr ⟨h1, h2, h3⟩
  · rw [concat_eq_append, ← cons_append, ← append_assoc] at heq
    obtain ⟨rfl, -⟩ := append_inj' heq rfl
    exact .inl ⟨pre, d, post', rfl, h1, h2, h3⟩

/-- The request of an accepted message belongs to a session that ends with the message. -/
theorem accepts_belongs {st₁ : State R} (hs : Sessions clean st h) (hc : clean → NoStraddle st s)
    (hm : s.msg = .request p) (hacc : Accepts s.env st p st₁ req key) :
    ∃ p₀ rest, Belongs clean (h ++ [.request p]) st₁ req p₀ rest := by
  cases hacc with
  | @more req st' buf w find start auth ptype size data =>
    obtain ⟨hmem, htok⟩ := token_of_find find
    obtain ⟨p₀, rest, ⟨⟨pre, hpre⟩, hstart, hauth, hsame⟩, hserves, ⟨a, hfeed, haw, hpol, hsig⟩, hclean⟩ :=
      hs req hmem
    obtain ⟨hstored, hw⟩ := storeData_done data
    obtain ⟨a', hfeed', haw', hpol', hsig'⟩ := hstored.received haw hpol hsig
    have htok₀ : p₀.token = req.token := by rw [hserves]; rfl
    have hauth₀ : p₀.authUid = req.authUid := by rw [hserves]; rfl
    have hpay : payloads p₀ (rest ++ [.request p]) = payloads p₀ rest ++ [p.data] := by
      simp [payloads, chunkOf, htok₀, htok]
    refine ⟨p₀, rest ++ [.request p], ⟨⟨pre, by simp [hpre]⟩, hstart, hauth, ?_⟩, ?_, ?_, ?_⟩
    · intro m hmem hmt
      rcases mem_append.mp hmem with hmem | hmem
      · exact hsame m hmem hmt
      · obtain rfl := mem_singleton.mp hmem
        exact ⟨p, rfl, start, by rw [hauth₀, auth]⟩
    · rw [Serves] at hserves ⊢
      rw [hserves]
    · refine ⟨a', ?_, by rw [haw', hw], hpol', hsig'⟩
      rw [hpay, feedAll_concat, hfeed, bind_some]
      exact hfeed'
    · intro hcl hstr
      rw [hpay] at hstr
      have hlen : (payloads p₀ rest).flatten.length = req.written := by
        rw [← haw, feedAll_written hfeed, zero_add]
      rcases straddles_concat hstr with hstr | hstr
      · exact hclean hcl hstr
      · rw [hlen] at hstr
        exact hc hcl p req hm find hstr
  | @start st₀ st₂ st' buf w find start len ptype prio auth key files size data =>
    obtain ⟨-, -, hempty, hsigempty⟩ := openFiles_cases.1 _ files
    obtain ⟨hstored, hw⟩ := storeData_done data
    obtain ⟨a', hfeed', haw', hpol', hsig'⟩ :=
      hstored.received (a := ⟨0, [], []⟩) rfl hempty hsigempty
    refine ⟨p, [], ⟨⟨h, rfl⟩, start, auth, by simp⟩, rfl, ?_, ?_⟩
    · refine ⟨a', ?_, by rw [haw', hw], hpol', hsig'⟩
      rw [payloads, filterMap_nil, feedAll, bind_eq_some_iff]
      exact ⟨a', hfeed', rfl⟩
    · rintro - ⟨pre, d, post, heq, h1, -, -⟩
      cases pre with
      | nil => simp at h1
      | cons e pre => simp [payloads] at heq

/-- A step keeps the sessions. -/
theorem step_sessions (hs : Sessions clean st h) (hc : clean → NoStraddle st s) (hstep : step st s = some st') :
    Sessions clean st' (h ++ [s.msg]) := by
  obtain ⟨hfiles, hreqs⟩ := step_requests hs.named hstep
  intro q hq
  rcases hreqs q hq with ⟨hq, hne⟩ | ⟨p, key, hm, -, hacc⟩
  · obtain ⟨p, rest, ⟨⟨pre, hpre⟩, hstart, hauth, hsame⟩, hserves, ⟨a, hfeed, haw, hpol, hsig⟩, hclean⟩ :=
      hs q hq
    have htok : p.token = q.token := by rw [hserves]; rfl
    have hpay : payloads p (rest ++ [s.msg]) = payloads p rest := by
      have hnone : chunkOf p.token s.msg = none := by
        cases hm : s.msg with
        | abort t => rfl
        | request q' =>
          rw [hm] at hne
          simp only [chunkOf]
          rw [if_neg (fun hc => hne (by rw [← htok, ← hc]; rfl))]
      simp [payloads, hnone]
    refine ⟨p, rest ++ [s.msg], ⟨⟨pre, by simp [hpre]⟩, hstart, hauth, ?_⟩, hserves, ?_, ?_⟩
    · intro m hmem hmt
      rcases mem_append.mp hmem with hmem | hmem
      · exact hsame m hmem hmt
      · obtain rfl := mem_singleton.mp hmem
        exact absurd (htok.symm.trans hmt.symm) hne
    · rw [hpay]
      refine ⟨a, hfeed, haw, ?_, fun hpos => ?_⟩
      · rw [hfiles _ _ rfl hne, hpol]
      · rw [hfiles _ _ rfl hne, hsig hpos]
    · rw [hpay]
      exact hclean
  · rw [hm]
    exact accepts_belongs hs hc hm hacc

/-- Every run from a state without open requests has its requests in sessions. -/
theorem run_sessions (h0 : st₀.preqs = []) (hc : Along step (fun st s => clean → NoStraddle st s) st₀ steps)
    (hrun : runs step st₀ steps = some st) : Sessions clean st (steps.map (·.msg)) := by
  have h := runs_history (I := fun st (h : List (Step Key R)) => Sessions clean st (h.map (·.msg)))
    (fun st h s st' hs hp hstep => by
      rw [map_append]
      exact step_sessions hs hp hstep)
    (h := []) (by intro q hq; rw [h0] at hq; cases hq) hc hrun
  simpa using h

/-! ### Who may install -/

theorem commitFiles_installed {clock : ℕ} {rs' : R} (h : commitFiles env clock siglen rs = .installed rs') :
    rs' = rs := by
  rw [commitFiles] at h
  split at h
  · cases h
  · split at h
    · cases h
    · split at h
      · exact (Commit.installed.inj h).symm
      · split at h
        · cases h
        · split at h
          · cases h
          · exact (Commit.installed.inj h).symm

/-- What is installed has been verified, if there was a key, and is the parse of the policy file. -/
theorem commit_installed (h : commit env st req key = .installed rs) :
    badSignature env (commitKey env req key) (policyFile st req) (sigFile st req) = false ∧
      env.parse (policyFile st req) (req.prio ≠ prioUser1) = some rs := by
  rw [commit] at h
  split at h
  · cases h
  · rename_i hbad
    split at h
    · cases h
    · rename_i rs₀ hparse
      obtain rfl := commitFiles_installed h
      exact ⟨by simpa using hbad, hparse⟩

/-- What a parse depends on besides the file: libc, memory, the static state of the parser and
    `rand()`. -/
structure ParseWorld where
  lc : Apn.Libc
  addr : ℕ → ℕ
  statics : Apn.Statics
  rnd : Apn.Rand

/-- `apn_parse` of a policy file, with APN_FLAG_NOASK if `noask`. A parse that does not return gives
    nothing to install. -/
def parseFile (w : ParseWorld) (bytes : List UInt8) (noask : Bool) : Option Apn.Ruleset :=
  ((Apn.apnParse ⟨w.lc, if noask then Apn.flagNoask else 0, w.addr,
    bytes.map (fun b => Char.ofNat b.toNat)⟩ w.statics w.rnd).filter (fun r => r.ret = 0)).map (·.rs)

theorem parseFile_noask {w : ParseWorld} {bytes : List UInt8} {rs : Apn.Ruleset}
    (h : parseFile w bytes true = some rs) : Apn.BodiesIn (fun _ b => b.NoAsk) rs := by
  rw [parseFile] at h
  obtain ⟨r, hr, rfl⟩ := map_eq_some_iff.mp h
  obtain ⟨hr, hret⟩ := filter_eq_some_iff.mp hr
  have hflag : Apn.flagNoask &&& Apn.flagNoask ≠ 0 := by decide
  exact Apn.accepted_noask hr (by simpa using hret) hflag

/-- The call `pe_user_insert_rs(rs, uid, prio)` at the end of the history `h` is due to the session of
    `p`: opened by root or by the user himself for his own policy, continued by nobody else, and the
    ruleset is the parse of the policy bytes of the session. -/
structure Authorised (h : List Msg) (parse : List UInt8 → Bool → Option Apn.Ruleset) (uid prio : ℕ)
    (rs : Apn.Ruleset) (p : PolRequest) (rest : List Msg) : Prop where
  session : Session h p rest
  last : ∀ m, h.getLast? = some m → m.token = p.token
  forUid : be32 p.data 4 = uid
  forPrio : be32 p.data 8 = prio
  parsed : parse ((payloads p rest).flatten.drop (be16 p.data 12)) (prio ≠ prioUser1) = some rs
  noask : prio ≠ prioUser1 → Apn.BodiesIn (fun _ b => b.NoAsk) rs

/-- The session of an installation, whatever the messages. -/
theorem inserts_belongs {uid prio : ℕ} (h0 : st₀.preqs = [])
    (hc : Along step (fun st s => clean → NoStraddle st s) st₀ (steps ++ [s]))
    (hrun : runs step st₀ steps = some st) (hins : Inserts s.env st s.msg uid prio rs) :
    ∃ p st₁ req key p₀ rest, s.msg = .request p ∧ Accepts s.env st p st₁ req key ∧
      commit s.env st₁ req key = .installed rs ∧ req.uid = uid ∧ req.prio = prio ∧
      Belongs clean ((steps ++ [s]).map (·.msg)) st₁ req p₀ rest := by
  obtain ⟨p, st₁, req, key, hm, hacc, -, hcommit, huid, hprio⟩ := hins
  obtain ⟨hc₁, hc₂⟩ := along_append.mp hc
  have hs := run_sessions h0 hc₁ hrun
  obtain ⟨p₀, rest, hb⟩ := accepts_belongs hs (hc₂ st hrun).1 hm hacc
  refine ⟨p, st₁, req, key, p₀, rest, hm, hacc, hcommit, huid, hprio, ?_⟩
  rw [map_append, map_singleton, hm]
  exact hb

/-- In every run in which no message begins strictly inside the signature of its request and reaches
    beyond it, every installed ruleset is authorised. -/
theorem install_authorised {st₀ st : State Apn.Ruleset} {steps : List (Step Key Apn.Ruleset)}
    {s : Step Key Apn.Ruleset} {uid prio : ℕ} {rs : Apn.Ruleset} (h0 : st₀.preqs = [])
    (hc : Along step NoStraddle st₀ (steps ++ [s])) (hrun : runs step st₀ steps = some st)
    (hparse : ∃ w, s.env.parse = parseFile w) (hins : Inserts s.env st s.msg uid prio rs) :
    ∃ p rest, Authorised ((steps ++ [s]).map (·.msg)) s.env.parse uid prio rs p rest := by
  have hc' : Along step (fun st s => True → NoStraddle st s) st₀ (steps ++ [s]) := by
    simpa only [forall_const] using hc
  obtain ⟨p, st₁, req, key, p₀, rest, hm, hacc, hcommit, rfl, rfl, hsession, hserves,
    ⟨a, hfeed, haw, hpol, -⟩, hclean⟩ := inserts_belongs h0 hc' hrun hins
  have hsiglen : req.siglen = be16 p₀.data 12 := by rw [hserves]; rfl
  have huid : be32 p₀.data 4 = req.uid := by rw [hserves]; rfl
  have hprio : be32 p₀.data 8 = req.prio := by rw [hserves]; rfl
  have htok : p₀.token = p.token := by
    have h₁ : p₀.token = req.token := by rw [hserves]; rfl
    have hs := run_sessions h0 (along_append.mp hc').1 hrun
    rw [h₁, (hacc.named hs.named).2]
  obtain ⟨a', hfeed', hgood⟩ := (not_straddles_iff _ _).mpr (hclean trivial)
  obtain rfl := Option.some.inj (hfeed.symm.trans hfeed')
  obtain ⟨-, hparsed⟩ := commit_installed hcommit
  have hbytes : policyFile st₁ req = (payloads p₀ rest).flatten.drop (be16 p₀.data 12) := by
    rw [policyFile, hpol, Option.getD_some, hgood.2.2, hsiglen]
  rw [hbytes] at hparsed
  refine ⟨p₀, rest, hsession, ?_, huid, hprio, hparsed, fun hne => ?_⟩
  · intro m hlast
    rw [List.map_append, List.map_singleton, List.getLast?_concat, Option.some.injEq] at hlast
    rw [← hlast, hm]
    exact htok.symm
  · obtain ⟨w, hw⟩ := hparse
    rw [hw] at hparsed
    simp only [hne, ne_eq, not_false_eq_true, decide_true] at hparsed
    exact parseFile_noask hparsed

/-! ### Two sessions

    User 1000 uploads a policy with a signature of four bytes, in two messages. -/

def plainWorld : ParseWorld :=
  ⟨(Apn.plain "").lc, id, Apn.Statics.init, Apn.zeros⟩

/-- No certificates, no failures, and `apn_parse` as the parser. -/
def parseEnv : Env Unit Apn.Ruleset :=
  { policysize := 0
    cert := fun _ _ => none
    verify := fun _ _ _ => true
    parse := parseFile plainWorld
    policyGet := fun _ _ => .error enoent
    openErr := fun _ => none
    write := fun _ => .ok 1
    fsyncErr := fun _ => none
    renameErr := fun _ => none }

def blankState : State Apn.Ruleset :=
  { preqs := [], files := fun _ => none, pdb := fun _ _ => none, writes := [], clock := 0 }

/-- The START message with the first payload bytes, and the END message with the others. -/
def startMsg (c : List UInt8) : PolRequest := ⟨7, 1000, true, false, demoHdr ++ c⟩

def endMsg (c : List UInt8) : PolRequest := ⟨7, 1000, false, true, c⟩

/-- The request behind the START message, and the state of the daemon. -/
def halfway (c : List UInt8) : Option (State Apn.Ruleset) :=
  runs step blankState [⟨parseEnv, .request (startMsg c)⟩]

theorem commit_of_parse (hkey : commitKey env req key = none) (hf : ∀ k, env.fsyncErr k = none)
    (hr : ∀ k, env.renameErr k = none) (hparse : env.parse (policyFile st req) (req.prio ≠ prioUser1) = some rs) :
    commit env st req key = .installed rs := by
  have hbad : badSignature env (commitKey env req key) (policyFile st req) (sigFile st req) = false := by
    rw [hkey]
    rfl
  simp only [commit, hbad, hparse, commitFiles, hf, hr, Bool.false_eq_true, if_false, ite_self]

/-- The END message installs what is left for the policy file. -/
theorem endMsg_inserts {d pol : List UInt8} {st st' : State Apn.Ruleset} {rs : Apn.Ruleset}
    (hacc : Accepts parseEnv st (endMsg d) st' req none) (huid : req.uid = 1000) (hprio : req.prio = 1)
    (hpol : policyFile st' req = pol) (hparse : parseFile plainWorld pol false = some rs) :
    Inserts parseEnv st (.request (endMsg d)) 1000 1 rs := by
  refine ⟨endMsg d, st', req, none, rfl, hacc, rfl, ?_, huid, hprio⟩
  refine commit_of_parse ?_ (fun _ => rfl) (fun _ => rfl) ?_
  · rw [commitKey]
    split <;> rfl
  · rw [hpol, hprio]
    exact hparse

/-- The whole signature first, then a policy that is an empty line. -/
theorem install_authorised_aligned : ∃ st rs, halfway [1, 2, 3, 4] = some st ∧
    Inserts parseEnv st (.request (endMsg [10])) 1000 1 rs ∧
    ∃ p rest, Authorised [.request (startMsg [1, 2, 3, 4]), .request (endMsg [10])] parseEnv.parse 1000
      1 rs p rest := by
  have hparse : (parseFile plainWorld [10] false).isSome = true := by decide +kernel
  obtain ⟨rs, hrs⟩ := Option.isSome_iff_exists.mp hparse
  have hins : ∀ st, halfway [1, 2, 3, 4] = some st →
      Inserts parseEnv st (.request (endMsg [10])) 1000 1 rs := by
    rintro st ⟨⟩
    exact endMsg_inserts (.more rfl rfl rfl rfl (by simp [TooBig, parseEnv]) rfl) rfl rfl
      (show policyFile _ _ = [10] from rfl) hrs
  have hc : Along step NoStraddle blankState ([⟨parseEnv, .request (startMsg [1, 2, 3, 4])⟩] ++
      [⟨parseEnv, .request (endMsg [10])⟩]) := by
    refine ⟨fun p req _ hf => (by cases hf), fun st hst => ⟨fun p req hm hf => ?_, fun _ _ => trivial⟩⟩
    obtain rfl := Option.some.inj hst
    obtain rfl := Msg.request.inj hm
    obtain rfl := Option.some.inj hf
    decide
  obtain ⟨st, hst⟩ : ∃ st, halfway [1, 2, 3, 4] = some st := ⟨_, rfl⟩
  exact ⟨st, rs, hst, hins st hst,
    install_authorised rfl hc hst ⟨plainWorld, rfl⟩ (hins st hst)⟩

/-- Two of the four signature bytes first: the END message `03 04 x \n \n` sends its first four bytes to
    the signature file, so that an empty line is installed. The policy of the session is no policy. -/
theorem install_straddling : ∃ st rs, halfway [1, 2] = some st ∧
    Inserts parseEnv st (.request (endMsg [3, 4, 120, 10, 10])) 1000 1 rs ∧
    ¬ ∃ p rest, Authorised [.request (startMsg [1, 2]), .request (endMsg [3, 4, 120, 10, 10])]
      parseEnv.parse 1000 1 rs p rest := by
  have hparse : (parseFile plainWorld [10] false).isSome = true := by decide +kernel
  obtain ⟨rs, hrs⟩ := Option.isSome_iff_exists.mp hparse
  have hfail : (parseFile plainWorld [120, 10, 10] false).isNone = true := by decide +kernel
  have hins : ∀ st, halfway [1, 2] = some st →
      Inserts parseEnv st (.request (endMsg [3, 4, 120, 10, 10])) 1000 1 rs := by
    rintro st ⟨⟩
    exact endMsg_inserts (.more rfl rfl rfl rfl (by simp [TooBig, parseEnv]) rfl) rfl rfl
      (show policyFile _ _ = [10] from rfl) hrs
  obtain ⟨st, hst⟩ : ∃ st, halfway [1, 2] = some st := ⟨_, rfl⟩
  refine ⟨st, rs, hst, hins st hst, ?_⟩
  rintro ⟨p, rest, ⟨⟨⟨pre, hpre⟩, hstart, -, -⟩, -, -, -, hparsed, -⟩⟩
  -- the END message is no START message, so the session begins with the first one
  have hp : p = startMsg [1, 2] ∧ rest = [.request (endMsg [3, 4, 120, 10, 10])] := by
    rcases pre with _ | ⟨m, _ | ⟨m', pre⟩⟩
    · obtain ⟨hp, hrest⟩ := List.cons.inj hpre
      exact ⟨(Msg.request.inj hp).symm, hrest.symm⟩
    · obtain ⟨-, hrest⟩ := List.cons.inj hpre
      obtain ⟨hp, -⟩ := List.cons.inj hrest
      rw [← Msg.request.inj hp] at hstart
      cases hstart
    · have hlen := congrArg List.length hpre
      simp at hlen
  obtain ⟨rfl, rfl⟩ := hp
  have hsome : parseFile plainWorld [120, 10, 10] false = some rs := hparsed
  rw [hsome] at hfail
  cases hfail

end Anoubis.Pe.Upload

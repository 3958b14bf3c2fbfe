import Anoubis.Pe.UploadRuns

/-! Verified or not, all or nothing: the END of an upload.

    Whether a signature is needed is decided when the START message comes, the verification happens
    at the END message, and in between certificates may come and go. The commit itself is a sequence
    of calls that can fail one by one:

        verify -> parse -> fsync -> rename policy -> fsync sig -> rename sig -> pe_user_insert_rs
                                    └ from here on the installed policy file is the new one ┘    -/

namespace Anoubis.Pe.Upload

open Anoubis.Lib Option

variable {Key R : Type}

/-! ### Signed policies -/

/-- No certificate is registered when an upload without signature ends in a message of its own. -/
def CertKept (st : State R) (s : Step Key R) : Prop :=
  ∀ p req, s.msg = .request p → pePolicyRequestFind st p.token = some req → p.fin = true →
    req.siglen = 0 → s.env.cert req.uid req.prio = none

variable {st st' : State R} {s : Step Key R}
variable {st₁ : State R} {p : PolRequest} {req : Req} {key : Option Key}

/-- The key of an accepted END message is that of the certificate registered at the moment. -/
theorem accepts_key {k : Key} (hc : CertKept st s) (hm : s.msg = .request p) (hfin : p.fin = true)
    (hacc : Accepts s.env st p st₁ req key) (hcert : s.env.cert req.uid req.prio = some k) :
    commitKey s.env req key = some k ∧ 0 < req.siglen := by
  cases hacc with
  | more find start auth ptype size data =>
    have hpos : 0 < Req.siglen _ := Nat.pos_of_ne_zero fun h0 => by
      rw [hc p _ hm find hfin h0] at hcert
      cases hcert
    exact ⟨by rw [commitKey, if_pos hpos, hcert], hpos⟩
  | start find start len ptype prio auth key files size data =>
    have hpos : 0 < be16 p.data 12 := Nat.pos_of_ne_zero fun h0 => by
      refine key ⟨?_, h0⟩
      rw [show s.env.cert (be32 p.data 4) (be32 p.data 8) = some k from hcert]
      rfl
    exact ⟨(if_pos hpos).trans hcert, hpos⟩

/-- In every run in which no certificate is registered when an upload without signature ends: what is
    installed while a certificate is registered has been verified with its key, policy and signature
    being what the session has uploaded. -/
theorem install_signed {st₀ st : State R} {steps : List (Step Key R)} {s : Step Key R}
    {uid prio : ℕ} {rs : R} {k : Key} (h0 : st₀.preqs = [])
    (hc : Along step CertKept st₀ (steps ++ [s])) (hrun : runs step st₀ steps = some st)
    (hins : Inserts s.env st s.msg uid prio rs) (hcert : s.env.cert uid prio = some k) :
    ∃ p rest a, Session ((steps ++ [s]).map (·.msg)) p rest ∧ be32 p.data 4 = uid ∧
      be32 p.data 8 = prio ∧ feedAll (be16 p.data 12) ⟨0, [], []⟩ (payloads p rest) = some a ∧
      s.env.verify k a.pol a.sig = true ∧ s.env.parse a.pol (prio ≠ prioUser1) = some rs := by
  have htrue : Along step (fun st s => False → NoStraddle st s) st₀ (steps ++ [s]) :=
    along_of_forall (fun _ _ h => h.elim) _ _
  obtain ⟨p, st₁, req, key, hm, hacc, hfin, hcommit, rfl, rfl⟩ := hins
  have hs := run_sessions h0 (along_append.mp htrue).1 hrun
  obtain ⟨p₀, rest, hsession, hserves, ⟨a, hfeed, -, hpol, hsig⟩, -⟩ :=
    accepts_belongs hs (fun h => h.elim) hm hacc
  obtain ⟨hkey, hpos⟩ := accepts_key ((along_append.mp hc).2 st hrun).1 hm hfin hacc hcert
  obtain ⟨hgood, hparse⟩ := commit_installed hcommit
  have hpol' : policyFile st₁ req = a.pol := by rw [policyFile, hpol, Option.getD_some]
  have hsig' : sigFile st₁ req = a.sig := by rw [sigFile, hsig hpos, Option.getD_some]
  rw [hkey, hpol', hsig', badSignature] at hgood
  rw [hpol'] at hparse
  refine ⟨p₀, rest, a, ?_, by rw [hserves]; rfl, by rw [hserves]; rfl, ?_, by simpa using hgood, hparse⟩
  · rw [List.map_append, List.map_singleton, hm]
    exact hsession
  · rw [hserves] at hfeed
    exact hfeed

/-- A certificate is registered, and the signature of every policy is `01 02 03 04`. -/
def certEnv : Env Unit Unit :=
  { demoEnv with cert := fun _ _ => some (), verify := fun _ _ sig => sig = [1, 2, 3, 4] }

theorem install_signed_demo : ∃ st, runs step demoState [⟨certEnv, .request (startMsg [1, 2, 3, 4])⟩] =
      some st ∧ Inserts certEnv st (.request (endMsg [10])) 1000 1 () ∧
    ∃ p rest a, Session [.request (startMsg [1, 2, 3, 4]), .request (endMsg [10])] p rest ∧
      be32 p.data 4 = 1000 ∧ be32 p.data 8 = 1 ∧
      feedAll (be16 p.data 12) ⟨0, [], []⟩ (payloads p rest) = some a ∧
      certEnv.verify () a.pol a.sig = true ∧ certEnv.parse a.pol (1 ≠ prioUser1) = some () := by
  have hins : ∀ st, runs step demoState [⟨certEnv, .request (startMsg [1, 2, 3, 4])⟩] = some st →
      Inserts certEnv st (.request (endMsg [10])) 1000 1 () := by
    rintro st ⟨⟩
    exact ⟨endMsg [10], _, _, none, rfl, .more rfl rfl rfl rfl (by simp [TooBig, certEnv, demoEnv]) rfl,
      rfl, rfl, rfl, rfl⟩
  have hc : Along step CertKept demoState ([⟨certEnv, .request (startMsg [1, 2, 3, 4])⟩] ++
      [⟨certEnv, .request (endMsg [10])⟩]) := by
    refine ⟨fun p req _ hf => (by cases hf), fun st hst =>
      ⟨fun p req hm hf _ hsig => ?_, fun _ _ => trivial⟩⟩
    obtain rfl := Option.some.inj hst
    obtain rfl := Msg.request.inj hm
    obtain rfl := Option.some.inj hf
    exact absurd hsig (by decide)
  obtain ⟨st, hst⟩ : ∃ st, runs step demoState
    [⟨certEnv, .request (startMsg [1, 2, 3, 4])⟩] = some st := ⟨_, rfl⟩
  exact ⟨st, hst, hins st hst, install_signed rfl hc hst (hins st hst) rfl⟩

/-- ANOUBIS_PTYPE_SETBYUID, uid 1000, prio 1, no signature. -/
def unsignedMsg : PolRequest := ⟨7, 1000, true, false, [0, 0, 1, 1, 0, 0, 3, 232, 0, 0, 0, 1, 0, 0]⟩

/-- The certificate is registered behind the START message, and no signature is valid. -/
def lateEnv : Env Unit Unit :=
  { demoEnv with cert := fun _ _ => some (), verify := fun _ _ _ => false }

theorem unsigned_installed : ∃ st, runs step demoState [⟨demoEnv, .request unsignedMsg⟩] = some st ∧
    Inserts lateEnv st (.request (endMsg [10])) 1000 1 () ∧ lateEnv.cert 1000 1 = some () ∧
    ∀ pol sig, lateEnv.verify () pol sig = false := by
  have hins : ∀ st, runs step demoState [⟨demoEnv, .request unsignedMsg⟩] = some st →
      Inserts lateEnv st (.request (endMsg [10])) 1000 1 () := by
    rintro st ⟨⟩
    exact ⟨endMsg [10], _, _, none, rfl, .more rfl rfl rfl rfl (by simp [TooBig, lateEnv, demoEnv]) rfl,
      rfl, rfl, rfl, rfl⟩
  obtain ⟨st, hst⟩ : ∃ st, runs step demoState [⟨demoEnv, .request unsignedMsg⟩] = some st := ⟨_, rfl⟩
  exact ⟨st, hst, hins st hst, rfl, fun _ _ => rfl⟩

/-! ### Failed uploads -/

/-- If the policy file has been renamed, the signature file is renamed too. -/
def SigStored (st : State R) (s : Step Key R) : Prop :=
  ∀ p st₁ req key rs, s.msg = .request p → Accepts s.env st p st₁ req key → p.fin = true →
    0 < req.siglen →
    badSignature s.env (commitKey s.env req key) (policyFile st₁ req) (sigFile st₁ req) = false →
    s.env.parse (policyFile st₁ req) (req.prio ≠ prioUser1) = some rs →
    s.env.fsyncErr st₁.clock = none → s.env.renameErr (st₁.clock + 1) = none →
    s.env.fsyncErr (st₁.clock + 2) = none ∧ s.env.renameErr (st₁.clock + 3) = none

theorem commit_not_half {n e : ℕ} (hc : SigStored st s) (hm : s.msg = .request p)
    (hacc : Accepts s.env st p st₁ req key) (hfin : p.fin = true) : commit s.env st₁ req key ≠ .half n e := by
  intro h
  rw [commit] at h
  split at h
  · cases h
  · rename_i hbad
    split at h
    · cases h
    · rename_i rs hparse
      rw [commitFiles] at h
      split at h
      · cases h
      · rename_i hfsync
        split at h
        · cases h
        · rename_i hrename
          split at h
          · cases h
          · rename_i hsig
            obtain ⟨h₁, h₂⟩ := hc p st₁ req key rs hm hacc hfin (Nat.pos_of_ne_zero hsig)
              (by simpa using hbad) hparse hfsync hrename
            rw [h₁, h₂] at h
            cases h

/-- A message with an error reply changes nothing that is installed. -/
theorem error_unchanged {r : Reply} (hn : ∀ q ∈ st.preqs, q.Named) (hc : SigStored st s)
    (h : peDispatchPolicy s.env st s.msg = .ret (some r) st') (he : r.error ≠ 0) : SameInstalled st st' := by
  cases hm : s.msg with
  | abort t =>
    rw [hm] at h
    exact absurd (abort_dropped hn h).1 (by simp)
  | request p =>
    rw [hm] at h
    rcases dispatch_cases hn h with ⟨st₁, req, key, hacc⟩ | hd
    · rw [dispatch_accepts hacc] at h
      obtain ⟨hnamed, -⟩ := hacc.named hn
      cases hfin : p.fin with
      | false => simp [hfin] at h
      | true =>
        rw [if_pos hfin, finish_eq] at h
        cases hcommit : commit s.env st₁ req key with
        | stopped n e =>
          rw [hcommit] at h
          obtain ⟨-, rfl⟩ := Outcome.ret.inj h
          have hput : Dropped req.token (st₁.ticks n) (pePolicyRequestPut (st₁.ticks n) req) :=
            put_dropped hnamed
          have hticks : SameInstalled st₁ (st₁.ticks n) := ⟨rfl, fun _ _ => rfl, fun _ _ => rfl⟩
          exact hacc.frame.sameInstalled.trans (hticks.trans hput.frame.sameInstalled)
        | half n e => exact absurd hcommit (commit_not_half hc hm hacc hfin)
        | installed rs =>
          rw [hcommit] at h
          obtain ⟨hr, -⟩ := Outcome.ret.inj h
          rw [← some.inj hr] at he
          exact absurd rfl he
    · exact hd.frame.sameInstalled

/-- A message behind which its request is still open changes nothing that is installed. -/
theorem open_unchanged (hn : ∀ q ∈ st.preqs, q.Named) (h : step st s = some st')
    (ho : (pePolicyRequestFind st' s.msg.token).isSome) : SameInstalled st st' := by
  obtain ⟨q, hq⟩ := isSome_iff_exists.mp ho
  obtain ⟨hmem, htok⟩ := token_of_find hq
  rcases (step_requests hn h).2 q hmem with ⟨-, hne⟩ | ⟨p, key, -, -, hacc⟩
  · exact absurd htok hne
  · exact hacc.frame.sameInstalled

/-- The messages `sess` begin with the first message of the request that the last of them is for: the
    token was not in use before, and from the first message on the request has been open. -/
structure RequestRun (t : ℕ) (st : State R) (sess : List (Step Key R)) : Prop where
  unused : pePolicyRequestFind st t = none
  first : ∃ s rest, sess = s :: rest ∧ s.msg.token = t
  opened : ∀ l s, sess = l ++ [s] → Along step (fun st s => ∀ st', step st s = some st' →
    (pePolicyRequestFind st' t).isSome) st l

theorem named_step (hn : ∀ q ∈ st.preqs, q.Named) (h : step st s = some st') : ∀ q ∈ st'.preqs, q.Named := by
  intro q hq
  rcases (step_requests hn h).2 q hq with ⟨hq, -⟩ | ⟨p, key, -, -, hacc⟩
  · exact hn q hq
  · exact (hacc.named hn).1

/-- The step with which a token comes into use is one of its messages. -/
theorem token_of_opened {t : ℕ} (hn : ∀ q ∈ st.preqs, q.Named) (h : step st s = some st')
    (hbefore : pePolicyRequestFind st t = none) (hafter : (pePolicyRequestFind st' t).isSome) : s.msg.token = t := by
  obtain ⟨q, hq⟩ := isSome_iff_exists.mp hafter
  obtain ⟨hmem, htok⟩ := token_of_find hq
  rcases (step_requests hn h).2 q hmem with ⟨hq', -⟩ | ⟨p, key, hm, -, hacc⟩
  · rw [pePolicyRequestFind, List.find?_eq_none] at hbefore
    exact absurd (hbefore q hq') (by simpa using htok)
  · rw [hm, ← htok]
    exact (hacc.named hn).2.symm

/-- The messages of the request that the message `s` is for. -/
theorem exists_requestRun {st₀ : State R} {steps : List (Step Key R)} (h0 : st₀.preqs = [])
    (hrun : runs step st₀ steps = some st) (hs : step st s = some st') :
    ∃ pre sess st₁, steps ++ [s] = pre ++ sess ∧ runs step st₀ pre = some st₁ ∧
      runs step st₁ sess = some st' ∧ RequestRun s.msg.token st₁ sess := by
  have hnone : ¬ (pePolicyRequestFind st₀ s.msg.token).isSome := by
    rw [pePolicyRequestFind, h0]
    simp
  cases hq : (pePolicyRequestFind st s.msg.token).isSome with
  | false =>
    -- the message opens its request or fails to
    refine ⟨steps, [s], st, rfl, hrun, ?_, ?_, ⟨s, [], rfl, rfl⟩, ?_⟩
    · rw [runs, hs]
      rfl
    · simpa using hq
    · intro l x heq
      have hlen := congrArg List.length heq
      obtain rfl : l = [] := List.length_eq_zero_iff.mp (by simpa using hlen)
      trivial
  | true =>
    obtain ⟨pre, x, post, st₁, rfl, hpre, hclosed, hpost, ha⟩ :=
      runs_since (Q := fun st => (pePolicyRequestFind st s.msg.token).isSome) hnone hrun hq
    have hn : ∀ q ∈ st₁.preqs, q.Named :=
      runs_keep (I := fun st => ∀ q ∈ st.preqs, q.Named)
        (fun _ _ _ hI hstep => named_step hI hstep) (by simp [h0]) hpre
    refine ⟨pre, x :: post ++ [s], st₁, by simp, hpre, ?_, by simpa using hclosed, ?_, ?_⟩
    · rw [runs_append, hpost, bind_some, runs, hs]
      rfl
    · refine ⟨x, post ++ [s], rfl, ?_⟩
      obtain ⟨st₂, hx, -⟩ := bind_eq_some_iff.mp hpost
      exact token_of_opened hn hx (by simpa using hclosed) (ha.1 st₂ hx)
    · intro l y heq
      obtain ⟨hl, -⟩ := List.append_inj' heq rfl
      rw [← hl]
      exact ha

/-- In every run in which the signature file is always renamed behind the policy file: a request that
    gets an error reply has changed nothing. None of its messages, from the first one on, changes the
    policy database, a policy file or a signature file; so these are as before the first message
    unless another request has been installed in between. -/
theorem failed_upload_unchanged {st₀ st st' : State R} {steps : List (Step Key R)} {s : Step Key R}
    {r : Reply} (h0 : st₀.preqs = []) (hrun : runs step st₀ steps = some st)
    (hc : Along step SigStored st₀ (steps ++ [s]))
    (hreply : peDispatchPolicy s.env st s.msg = .ret (some r) st') (he : r.error ≠ 0) :
    ∃ pre sess st₁, steps ++ [s] = pre ++ sess ∧ runs step st₀ pre = some st₁ ∧
      RequestRun s.msg.token st₁ sess ∧
      Along step (fun st x => x.msg.token = s.msg.token → ∀ st', step st x = some st' →
        SameInstalled st st') st₁ sess ∧
      (Along step (fun st x => x.msg.token ≠ s.msg.token → ∀ st', step st x = some st' →
        SameInstalled st st') st₁ sess → SameInstalled st₁ st') := by
  have hs : step st s = some st' := by rw [step, hreply]
  have hkeep : ∀ (st : State R) (x : Step Key R) (st' : State R), (∀ q ∈ st.preqs, q.Named) →
      step st x = some st' → ∀ q ∈ st'.preqs, q.Named := fun _ _ _ hI hstep => named_step hI hstep
  have hnamed {l : List (Step Key R)} {st₂ : State R} (hl : runs step st₀ l = some st₂) :
      ∀ q ∈ st₂.preqs, q.Named :=
    runs_keep (I := fun st => ∀ q ∈ st.preqs, q.Named) hkeep (by simp [h0]) hl
  obtain ⟨pre, sess, st₁, hsplit, hpre, hsess, hreq⟩ := exists_requestRun h0 hrun hs
  obtain ⟨l, rfl⟩ : ∃ l, sess = l ++ [s] := by
    obtain ⟨x, rest, hx, -⟩ := hreq.first
    obtain ⟨l, y, hly⟩ := List.eq_nil_or_concat' sess |>.resolve_left (by simp [hx])
    rw [hly, ← List.append_assoc] at hsplit
    obtain ⟨-, hy⟩ := List.append_inj' hsplit rfl
    exact ⟨l, by rw [hly, List.singleton_inj.mp hy]⟩
  have hsteps : steps = pre ++ l := by
    rw [← List.append_assoc] at hsplit
    exact (List.append_inj' hsplit rfl).1
  have hown : Along step (fun st x => x.msg.token = s.msg.token → ∀ st', step st x = some st' →
      SameInstalled st st') st₁ (l ++ [s]) := by
    rw [along_append]
    constructor
    · refine Along.mono hkeep (fun st x hn hopen htok st' hstep => ?_) (hnamed hpre)
        (hreq.opened l s rfl)
      exact open_unchanged hn hstep (by rw [htok]; exact hopen st' hstep)
    · intro st₂ hst₂
      have hst : st₂ = st := by
        rw [hsteps, runs_append, hpre, Option.bind_some, hst₂] at hrun
        exact Option.some.inj hrun
      subst hst
      refine ⟨fun _ st'' hstep => ?_, fun _ _ => trivial⟩
      rw [← Option.some.inj (hs.symm.trans hstep)]
      exact error_unchanged (hnamed hrun) ((along_append.mp hc).2 _ hrun).1 hreply he
  refine ⟨pre, l ++ [s], st₁, hsplit, hpre, hreq, hown, fun hother => ?_⟩
  refine runs_related SameInstalled.refl SameInstalled.trans ?_ hsess
  refine Along.mono (I := fun _ => True) (fun _ _ _ _ _ => trivial) ?_ trivial (hown.and hother)
  intro st x _ hboth st' hstep
  by_cases htok : x.msg.token = s.msg.token
  · exact hboth.1 htok st' hstep
  · exact hboth.2 htok st' hstep

/-- The parser refuses every policy. -/
def refuseEnv : Env Unit Unit := { demoEnv with parse := fun _ _ => none }

theorem failed_upload_unchanged_refused : ∃ st st' r,
    runs step demoState [⟨refuseEnv, .request (startMsg [1, 2, 3, 4])⟩] = some st ∧
    peDispatchPolicy refuseEnv st (.request (endMsg [10])) = .ret (some r) st' ∧ r.error = einval ∧
    ∃ pre sess st₁, [⟨refuseEnv, .request (startMsg [1, 2, 3, 4])⟩] ++
        [⟨refuseEnv, .request (endMsg [10])⟩] = pre ++ sess ∧ runs step demoState pre = some st₁ ∧
      RequestRun 7 st₁ sess ∧ Along step (fun st x => x.msg.token = 7 → ∀ st', step st x = some st' →
        SameInstalled st st') st₁ sess := by
  have hc : Along step SigStored demoState ([⟨refuseEnv, .request (startMsg [1, 2, 3, 4])⟩] ++
      [⟨refuseEnv, .request (endMsg [10])⟩]) := by
    refine ⟨fun p st₁ req key rs _ _ _ _ _ hparse => ?_, fun st _ =>
      ⟨fun p st₁ req key rs _ _ _ _ _ hparse => ?_, fun _ _ => trivial⟩⟩
    · cases hparse
    · cases hparse
  obtain ⟨st, hst⟩ : ∃ st, runs step demoState
    [⟨refuseEnv, .request (startMsg [1, 2, 3, 4])⟩] = some st := ⟨_, rfl⟩
  have hreply : ∃ st', peDispatchPolicy refuseEnv st (.request (endMsg [10])) =
      .ret (some ⟨7, einval⟩) st' := by
    obtain rfl := Option.some.inj hst
    exact ⟨_, rfl⟩
  obtain ⟨st', hreply⟩ := hreply
  obtain ⟨pre, sess, st₁, hsplit, hpre, hreq, hown, -⟩ :=
    failed_upload_unchanged (s := ⟨refuseEnv, .request (endMsg [10])⟩) rfl hst hc hreply (by decide)
  exact ⟨st, st', _, hst, hreply, rfl, pre, sess, st₁, hsplit, hpre, hreq, hown⟩

/-- The second `rename` of the commit fails. -/
def halfEnv : Env Unit Unit := { demoEnv with renameErr := fun k => if k = 10 then some eio else none }

/-- The policy file of the failed upload is installed. -/
theorem half_installed : ∃ st st' r,
    runs step demoState [⟨halfEnv, .request (startMsg [1, 2, 3, 4])⟩] = some st ∧
    peDispatchPolicy halfEnv st (.request (endMsg [10])) = .ret (some r) st' ∧ r.error ≠ 0 ∧
    demoState.files (.real 1000 1) = none ∧ st'.files (.real 1000 1) = some [10] := by
  obtain ⟨st, hst⟩ : ∃ st, runs step demoState
    [⟨halfEnv, .request (startMsg [1, 2, 3, 4])⟩] = some st := ⟨_, rfl⟩
  have hreply : ∃ st', peDispatchPolicy halfEnv st (.request (endMsg [10])) =
      .ret (some ⟨7, eio⟩) st' ∧ st'.files (.real 1000 1) = some [10] := by
    obtain rfl := Option.some.inj hst
    exact ⟨_, rfl, rfl⟩
  obtain ⟨st', hreply, hfile⟩ := hreply
  exact ⟨st, st', _, hst, hreply, by decide, rfl, hfile⟩

end Anoubis.Pe.Upload

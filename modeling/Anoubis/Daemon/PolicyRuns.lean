import Anoubis.Daemon.Policy

/-! Every kernel event is answered once.

    The queues always hold exactly the tokens the policy engine has replied to, so that with distinct
    tokens each of them is in one place. What can go wrong is the end: after the end of file from the
    session engine nobody looks at `replyq` any more, and an event that is escalated then is never
    answered. This happens exactly in the runs where the session's pipe ends first. -/

namespace Anoubis.Daemon.Policy

open List

open Anoubis.Lib Option

variable {mask : U32}

/-- Where the tokens of a run are. -/
structure Answered (mask : U32) (ops : List Op) (s : State) : Prop where
  /-- At most one EVENTREPLY for a token goes to the master. -/
  once : (s.p2m.map Prod.fst).Nodup
  /-- It answers an event that came in. -/
  known : ∀ t ∈ s.p2m.map Prod.fst, t ∈ received ops
  /-- An event with a reply of the policy engine is answered, escalated or held, and only one of these. -/
  somewhere : ∀ t ∈ decided ops,
    (t ∈ s.p2m.map Prod.fst ∧ t ∉ s.replyq.map ReplyWait.token ∧ t ∉ s.hold.map Prod.fst) ∨
    (t ∉ s.p2m.map Prod.fst ∧ t ∈ s.replyq.map ReplyWait.token ∧ t ∉ s.hold.map Prod.fst) ∨
    (t ∉ s.p2m.map Prod.fst ∧ t ∉ s.replyq.map ReplyWait.token ∧ t ∈ s.hold.map Prod.fst)
  /-- The end of an upgrade releases the answers that were held. -/
  released : ∀ s', step mask s .upgradeEnd = some s' → s'.hold = []

theorem decided_sublist (ops : List Op) : (decided ops).Sublist (received ops) := by
  induction ops with
  | nil => exact .refl _
  | cons op ops ih =>
    cases op with
    | eventdev hdr reply now =>
      have hr : received (.eventdev hdr reply now :: ops) = hdr.token :: received ops := rfl
      rw [hr, decided, filterMap_cons]
      cases hd : (Op.eventdev hdr reply now).decides with
      | none => exact ih.cons _
      | some t =>
        cases reply with
        | none => cases hd
        | some reply =>
          rw [Op.decides] at hd
          split at hd
          · rw [← some.inj hd]
            exact ih.cons_cons _
          · cases hd
    | _ => exact ih

variable {ops : List Op} {s : State}

/-- The queues hold the tokens that were decided. -/
theorem tokens_runs (h : runs (step mask) State.init ops = some s) : (tokens s).Perm (decided ops) := by
  refine runs_remember (I := fun s ops => (tokens s).Perm (decided ops)) ?_ (.refl _) h
  intro s ops op s' hI hs
  have hd : decided (ops ++ [op]) = decided ops ++ op.decides.toList := by
    rw [decided, filterMap_append, decided]
    cases hop : op.decides <;> simp [hop]
  rw [hd]
  exact (tokens_step hs).trans (hI.append_right _)

theorem answered_of_tokens (hp : (tokens s).Perm (decided ops)) (hd : (received ops).Nodup) :
    Answered mask ops s := by
  have hnd : (tokens s).Nodup := hp.nodup_iff.mpr (hd.sublist (decided_sublist ops))
  obtain ⟨hm, hrest, hdisj⟩ := nodup_append'.mp hnd
  obtain ⟨-, -, hdisj'⟩ := nodup_append'.mp hrest
  refine ⟨hm, fun t ht => ?_, fun t ht => ?_, fun s' hs' => ?_⟩
  · exact (decided_sublist ops).subset (hp.subset (mem_append_left _ ht))
  · rcases mem_append.mp (hp.symm.subset ht) with hin | hin
    · refine .inl ⟨hin, fun hr => ?_, fun hh => ?_⟩
      · exact hdisj hin (mem_append_left _ hr)
      · exact hdisj hin (mem_append_right _ hh)
    · have hout : t ∉ s.p2m.map Prod.fst := fun hm' => hdisj hm' hin
      rcases mem_append.mp hin with hr | hh
      · exact .inr (.inl ⟨hout, hr, fun hh => hdisj' hr hh⟩)
      · exact .inr (.inr ⟨hout, fun hr => hdisj' hr hh, hh⟩)
  · rw [step] at hs'
    split at hs'
    · rw [← some.inj hs']
      rfl
    · cases hs'

/-! ### The end -/

/-- No event is escalated once the termination level is three. -/
def InTime (s : State) : Op → Prop
  | .eventdev hdr (some reply) _ => hdr.handled = true → reply.ask = true → s.terminate ≠ 3
  | _ => True

/-- At level three nobody waits. -/
def Quiet (s : State) : Prop := s.terminate ≤ 3 ∧ (s.terminate = 3 → s.replyq = [])

theorem dispatchTimer_terminate (now : ℤ) (s : State) : (dispatchTimer now s).terminate = s.terminate := rfl

theorem quiet_dispatchTimer (now : ℤ) (h : s.terminate ≤ 3) : Quiet (dispatchTimer now s) := by
  refine ⟨h, fun h3 => ?_⟩
  have hno : ∀ w ∈ s.replyq, ¬ stays s.terminate now w = true := by
    intro w _
    rw [dispatchTimer_terminate] at h3
    simp [stays, h3]
  exact filter_eq_nil_iff.mpr hno

theorem quiet_raise (now : ℤ) (h : s.terminate < 3) : Quiet (raise now s) := by
  have hle : s.terminate + 1 ≤ 3 := h
  rw [raise]
  simp only
  split
  next h1 => exact ⟨hle, fun h3 => by simp only at h3; omega⟩
  next =>
    split
    · exact quiet_dispatchTimer now hle
    next h3 => exact ⟨hle, fun h3' => absurd h3' h3⟩

theorem raise_terminate (now : ℤ) (s : State) : (raise now s).terminate = s.terminate + 1 := by
  rw [raise]
  simp only
  split
  · rfl
  · split <;> rfl

theorem quiet_setTerminate (now : ℤ) {n : ℕ} (hn : n ≤ 3) (h : Quiet s) : Quiet (setTerminate now n s) := by
  rw [setTerminate]
  generalize hk : n - s.terminate = k
  induction k generalizing s with
  | zero => exact h
  | succ k ih =>
    rw [Function.iterate_succ_apply]
    refine ih (quiet_raise now (by omega)) ?_
    rw [raise_terminate]
    omega

/-- Leaving `replyq`. -/
theorem quiet_dispatchEventreply (token : ℕ) (reply : U32) (h : Quiet s) :
    Quiet (dispatchEventreply token reply s) := by
  rw [dispatchEventreply]
  split
  · exact h
  · refine ⟨h.1, fun h3 => ?_⟩
    simp only
    rw [h.2 h3]
    rfl

theorem quiet_eventdev (mask : U32) (now : ℤ) {hdr : Hdr} {reply : Option Reply} (h : Quiet s)
    (hin : InTime s (.eventdev hdr reply now)) : Quiet (dispatchEventdev mask now hdr reply s) := by
  cases reply with
  | none =>
    rw [dispatchEventdev]
    split <;> exact h
  | some reply =>
    rw [dispatchEventdev]
    split
    · exact h
    next hh =>
      rw [dispatchReply]
      split
      next hask => exact ⟨h.1, fun h3 => absurd h3 (hin (by simpa using hh) hask)⟩
      next => split <;> exact h

theorem quiet_step {s' : State} {op : Op} (h : Quiet s) (hin : InTime s op) (hs : step mask s op = some s') :
    Quiet s' := by
  cases op with
  | eventdev hdr reply now =>
    rw [step] at hs
    split at hs
    · rw [← some.inj hs]
      exact quiet_eventdev mask now h hin
    · cases hs
  | upgradeEnd =>
    rw [step] at hs
    split at hs
    · rw [← some.inj hs]
      exact h
    · cases hs
  | eofMaster now =>
    rw [step] at hs
    split at hs
    · rw [← some.inj hs]
      exact quiet_setTerminate now (n := 2) (by decide) h
    · cases hs
  | eventreply token reply =>
    rw [step] at hs
    split at hs
    · rw [← some.inj hs]
      exact quiet_dispatchEventreply token reply h
    · cases hs
  | eofSession now =>
    rw [step] at hs
    split at hs
    · rw [← some.inj hs]
      exact quiet_setTerminate now (n := 3) (s := { s with s2p := false }) le_rfl h
    · cases hs
  | timer now =>
    rw [step] at hs
    split at hs
    · rw [← some.inj hs]
      exact quiet_dispatchTimer now (s := { s with timer := false }) h.1
    · cases hs
  | sigterm now =>
    rw [step] at hs
    split at hs
    · rw [← some.inj hs]
      exact quiet_setTerminate now (n := 1) (by decide) h
    · cases hs

/-- An event that is escalated too late. -/
theorem not_quiet_of_late {s' : State} {op : Op} (h : ¬ InTime s op) (hs : step mask s op = some s') :
    s'.terminate = 3 ∧ s'.replyq ≠ [] := by
  cases op with
  | eventdev hdr reply now =>
    cases reply with
    | none => exact absurd trivial h
    | some reply =>
      obtain ⟨hh, hask, h3⟩ : hdr.handled = true ∧ reply.ask = true ∧ s.terminate = 3 := by
        simpa [InTime] using h
      rw [step] at hs
      split at hs
      · rw [← some.inj hs, dispatchEventdev, if_neg (by simp [hh])]
        simp only [dispatchReply, hask, if_true]
        exact ⟨h3, by simp⟩
      · cases hs
  | _ => exact absurd trivial h

/-- The states a run passes through at level three have nobody waiting if and only if no event is
    escalated at that level. -/
theorem quiet_iff_inTime (hrun : runs (step mask) State.init ops = some s) :
    (∀ pre post s', ops = pre ++ post → runs (step mask) State.init pre = some s' →
      s'.terminate = 3 → s'.replyq = []) ↔ Along (step mask) InTime State.init ops := by
  constructor
  · intro hall
    induction ops using List.reverseRecOn generalizing s with
    | nil => trivial
    | append_singleton ops op ih =>
      obtain ⟨s₁, hr₁, hs⟩ := runs_concat hrun
      rw [along_append]
      refine ⟨ih hr₁ fun pre post s' hpre => hall pre (post ++ [op]) s' ?_, fun s₂ hr₂ => ?_⟩
      · rw [hpre, append_assoc]
      · obtain rfl : s₁ = s₂ := some.inj (hr₁.symm.trans hr₂)
        refine ⟨?_, fun _ _ => trivial⟩
        by_contra hlate
        obtain ⟨h3, hne⟩ := not_quiet_of_late hlate hs
        exact hne (hall (ops ++ [op]) [] s (append_nil _).symm hrun h3)
  · intro hin pre post s' hops hr h3
    rw [hops, along_append] at hin
    have hq : Quiet s' := runs_invariant (fun _ _ _ hI hp hs => quiet_step hI hp hs)
      (⟨by decide, fun _ => rfl⟩ : Quiet State.init) hin.1 hr
    exact hq.2 h3

/-- Every kernel event is answered exactly once. In all runs with distinct tokens the answers are in
    order; and nobody waits for ever at the end of a run exactly if no event is escalated after the end
    of file from the session engine. -/
theorem events_answered {ops : List Op} {s : State} (hrun : runs (step mask) State.init ops = some s)
    (hdist : (received ops).Nodup) :
    Answered mask ops s ∧
      ((∀ pre post s', ops = pre ++ post → runs (step mask) State.init pre = some s' →
        s'.terminate = 3 → s'.replyq = []) ↔ Along (step mask) InTime State.init ops) :=
  ⟨answered_of_tokens (tokens_runs hrun) hdist, quiet_iff_inTime hrun⟩

/-- An escalation that the user answers. -/
theorem events_answered_user : Answered 0xff00 [.eventdev ⟨7, true, false⟩ (some ⟨true, 0x101, 60, false⟩) 0,
    .eventreply 7 0] ⟨0, true, true, true, true, [], [(7, 0x100)], [], [.ask 7]⟩ := by
  have hrun : runs (step 0xff00) State.init [.eventdev ⟨7, true, false⟩ (some ⟨true, 0x101, 60, false⟩) 0,
      .eventreply 7 0] = some ⟨0, true, true, true, true, [], [(7, 0x100)], [], [.ask 7]⟩ := by decide
  exact (events_answered hrun (by decide)).1

/-- The session engine is gone, the master is not: an event that needs the user waits for ever. -/
theorem late_escalation_waits : ∃ s, runs (step 0xff00) State.init [.eofSession 0,
    .eventdev ⟨7, true, false⟩ (some ⟨true, 0x101, 60, false⟩) 1] = some s ∧
      s.terminate = 3 ∧ s.replyq ≠ [] ∧ ∀ now, step 0xff00 s (.timer now) = none := by
  refine ⟨⟨3, true, false, false, false, [⟨7, 0x100, 1, 60⟩], [], [], [.ask 7]⟩, by decide, rfl, ?_,
    fun now => rfl⟩
  exact List.cons_ne_nil _ _

end Anoubis.Daemon.Policy

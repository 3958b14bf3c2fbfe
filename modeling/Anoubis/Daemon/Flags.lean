import Anoubis.Daemon.PolicyRuns
import Anoubis.Proto.NotifyRuns

/-! The way of a user's verdict to the kernel.

        client            session engine                                policy engine          kernel
        REPLY, DELEGATE --> process_reply --> notify_answer --> sendreply -->
                            notify_callback -- EVENTREPLY --> dispatch_s2p: reply |= flags --> p2m -->

    The policy engine's own reply to an escalated event has flags for the kernel; they are saved in
    `reply_wait` and joined to the user's verdict. The verdict is a number of 32 bits that nobody masks
    on its way: the flags of the final reply are those of the policy engine if and only if the user sends
    no others. A verdict that is negative as an `int` is refused on the way, and the event is denied
    without flags when its time is over. -/

namespace Anoubis.Daemon.Flags

open Option

open Anoubis.Lib Anoubis.Proto Anoubis.Daemon.Policy List

/-- An ANOUBIS_REPLY or ANOUBIS_N_DELEGATE message (Anoubis_AckMessage). -/
structure Ack where
  delegate : Bool
  token : ℕ
  error : U32
  deriving DecidableEq

/-- `anoubis_process_reply` of a session whose notification group is `g`. -/
def anoubisProcessReply (ret : ℕ → ℤ) (g : ℕ) (m : Ack) : Notify.M ℤ :=
  Notify.anoubisNotifyAnswer ret g m.token m.error m.delegate

/-- The EVENTREPLY messages that `notify_callback` has queued between two stores: token of the kernel
    event and verdict. -/
def eventreplies (s s' : Notify.Store) : List (ℕ × U32) :=
  (s'.log.drop s.log.length).filterMap (fun x => match x.2 with
    | .finish verdict => (s.heads x.1).map (fun head => (head.m.token, verdict))
    | _ => none)

/-- `dispatch_s2p` on a list of EVENTREPLY messages. -/
def dispatchEventreplies (l : List (ℕ × U32)) (p : Policy.State) : Policy.State :=
  l.foldl (fun p x => dispatchEventreply x.1 x.2 p) p

/-- The reply the kernel gets for an event after a client's message, at the latest when the timer
    expires at `now`. -/
def kernelReply (ret : ℕ → ℤ) (s : Notify.Store) (p : Policy.State) (g : ℕ) (m : Ack) (now : ℤ) :
    Option U32 :=
  ((anoubisProcessReply ret g m).run s).bind (fun r =>
    ((dispatchTimer now (dispatchEventreplies (eventreplies s r.2) p)).p2m.find?
      (fun x => x.1 == m.token)).map Prod.snd)

/-! ### What is saved -/

/-- The flags that wait are those of the policy engine's reply. -/
def Saved (mask : U32) (ops : List Op) (w : ReplyWait) : Prop :=
  ∃ hdr reply now, Op.eventdev hdr (some reply) now ∈ ops ∧ hdr.handled = true ∧ reply.ask = true ∧
    hdr.token = w.token ∧ w.flags = anoubisRetFlags mask reply.reply ∧ w.starttime = now ∧
    w.timeout = reply.timeout

theorem raise_replyq_subset (now : ℤ) (s : State) : ∀ w ∈ (raise now s).replyq, w ∈ s.replyq := by
  rw [raise]
  simp only
  split
  · exact fun w hw => hw
  · split
    · exact fun w hw => (mem_filter.mp hw).1
    · exact fun w hw => hw

theorem setTerminate_replyq_subset (now : ℤ) (n : ℕ) (s : State) :
    ∀ w ∈ (setTerminate now n s).replyq, w ∈ s.replyq := by
  rw [setTerminate]
  induction n - s.terminate generalizing s with
  | zero => exact fun w hw => hw
  | succ k ih =>
    rw [Function.iterate_succ_apply]
    exact fun w hw => raise_replyq_subset now s w (ih (raise now s) w hw)

variable {mask : U32} {ops : List Op} {hdr : Hdr} {reply : Option Reply} {now : ℤ}

/-- Only an escalation enters `replyq`. -/
theorem replyq_step {s s' : State} {op : Op} (h : step mask s op = some s') :
    ∀ w ∈ s'.replyq, w ∈ s.replyq ∨ Saved mask [op] w := by
  cases op with
  | eventdev hdr reply now =>
    rw [step] at h
    split at h
    · rw [← some.inj h]
      intro w hw
      cases reply with
      | none =>
        rw [dispatchEventdev] at hw
        left
        split at hw <;> exact hw
      | some reply =>
        rw [dispatchEventdev] at hw
        split at hw
        · exact .inl hw
        next hh =>
          rw [dispatchReply] at hw
          split at hw
          next hask =>
            rcases mem_append.mp hw with hw | hw
            · exact .inl hw
            · rw [mem_singleton.mp hw]
              exact .inr ⟨hdr, reply, now, mem_cons_self, by simpa using hh, hask, rfl, rfl, rfl, rfl⟩
          next =>
            left
            split at hw <;> exact hw
    · cases h
  | upgradeEnd =>
    rw [step] at h
    split at h
    · rw [← some.inj h]
      exact fun w hw => .inl hw
    · cases h
  | eofMaster now =>
    rw [step] at h
    split at h
    · rw [← some.inj h]
      exact fun w hw => .inl (setTerminate_replyq_subset now 2 s w hw)
    · cases h
  | eventreply token reply =>
    rw [step] at h
    split at h
    · rw [← some.inj h, dispatchEventreply]
      split
      · exact fun w hw => .inl hw
      · exact fun w hw => .inl (mem_of_mem_eraseP hw)
    · cases h
  | eofSession now =>
    rw [step] at h
    split at h
    · rw [← some.inj h]
      exact fun w hw => .inl (setTerminate_replyq_subset now 3 { s with s2p := false } w hw)
    · cases h
  | timer now =>
    rw [step] at h
    split at h
    · rw [← some.inj h]
      exact fun w hw => .inl (mem_filter.mp hw).1
    · cases h
  | sigterm now =>
    rw [step] at h
    split at h
    · rw [← some.inj h]
      exact fun w hw => .inl (setTerminate_replyq_subset now 1 s w hw)
    · cases h

theorem saved_runs {p : State} (h : runs (step mask) State.init ops = some p) : ∀ w ∈ p.replyq, Saved mask ops w := by
  have hmono : ∀ {ops ops' : List Op} {w : ReplyWait}, (∀ op ∈ ops, op ∈ ops') → Saved mask ops w →
      Saved mask ops' w := by
    rintro ops ops' w hsub ⟨hdr, reply, now, hm, hrest⟩
    exact ⟨hdr, reply, now, hsub _ hm, hrest⟩
  refine runs_remember (I := fun p ops => ∀ w ∈ p.replyq, Saved mask ops w) ?_
    (fun _ hw => absurd hw not_mem_nil) h
  intro s ops op s' hI hs w hw
  rcases replyq_step hs w hw with hw | hw
  · exact hmono (fun _ ho => mem_append_left _ ho) (hI w hw)
  · exact hmono (fun _ ho => mem_append_right _ ho) hw

/-! ### The reply -/

theorem received_sublist_cons (op : Op) (ops : List Op) : (received ops).Sublist (received (op :: ops)) := by
  cases op with
  | eventdev hdr reply now => exact sublist_cons_self _ _
  | _ => exact .refl _

theorem mem_received (h : Op.eventdev hdr reply now ∈ ops) : hdr.token ∈ received ops :=
  mem_filterMap.mpr ⟨_, h, rfl⟩

/-- A token names one kernel event. -/
theorem eventdev_unique (hd : (received ops).Nodup) {hdr' : Hdr} {reply' : Option Reply} {now' : ℤ}
    (h : Op.eventdev hdr reply now ∈ ops) (h' : Op.eventdev hdr' reply' now' ∈ ops) (ht : hdr.token = hdr'.token) :
    Op.eventdev hdr reply now = Op.eventdev hdr' reply' now' := by
  induction ops with
  | nil => cases h
  | cons op ops ih =>
    rcases mem_cons.mp h with rfl | h₁ <;> rcases mem_cons.mp h' with he | h₂
    · exact he.symm
    · exact absurd (ht ▸ mem_received h₂) (nodup_cons.mp hd).1
    · subst he
      exact absurd (ht ▸ mem_received h₁) (nodup_cons.mp hd).1
    · exact ih (hd.sublist (received_sublist_cons op ops)) h₁ h₂

/-- The flags of the user's verdict joined with the saved ones. -/
theorem flags_or (mask verdict own : U32) : anoubisRetFlags mask (verdict ||| anoubisRetFlags mask own) =
    anoubisRetFlags mask verdict ||| anoubisRetFlags mask own := by
  ext i
  simp only [anoubisRetFlags, BitVec.getElem_and, BitVec.getElem_or]
  cases verdict[i] <;> cases mask[i] <;> simp

theorem find?_append_of_not_mem {l l' : List (ℕ × U32)} {t : ℕ} (h : t ∉ l.map Prod.fst) :
    (l ++ l').find? (fun x => x.1 == t) = l'.find? (fun x => x.1 == t) := by
  have hnone : l.find? (fun x => x.1 == t) = none := by
    rw [find?_eq_none]
    intro x hx he
    exact h (mem_map.mpr ⟨x, hx, by simpa using he⟩)
  rw [find?_append, hnone, none_or]

/-- A session of the user 1000 is asked about the event 99. -/
def asked : List Notify.Op :=
  [.create 1000, .register 0 1000 0 0, .createHead (.event .ask 1000 7 10 99), .notify 0 1 32 0]

/-- The policy engine escalates the event 99 with the flag 0x100. -/
def escalated : List Op := [.eventdev ⟨99, true, false⟩ (some ⟨true, 0x10d, 60, false⟩) 0]

end Anoubis.Daemon.Flags

import Anoubis.Basic
import Anoubis.Lib.Run
import Anoubis.Lib.Update
import Mathlib.Data.BitVec

/-! The event loop of the policy process (`policy.c`).

    The master forwards kernel events; the policy engine decides, or asks the user through the session
    engine. A decision goes back at once, or waits in `eventq_p2m_hold` for the end of an upgrade. An
    escalation waits in `replyq` for the user's answer, for its timeout, or for the end.

        EVENTDEV ─┬─ decided ──────────────▶ p2m ──▶ kernel
                  ├─ decided, hold ──▶ hold ──▶ (UPGRADE_END) ──▶ p2m
                  └─ ask ──▶ replyq ──▶ (EVENTREPLY, timer, end of file from the session) ──▶ p2m

    The three handlers run one at a time; a step is one message, one end of file, one expiry of the
    timer or one signal. The policy engine itself is a parameter of the step: its reply to the event. The
    queues `p2m` and `p2s` keep everything that was put on them. `mask` is that of ANOUBIS_RET_FLAGS. -/

namespace Anoubis.Daemon.Policy

open Anoubis.Lib List

abbrev U32 := BitVec 32

/-- ANOUBIS_RET_FLAGS of the kernel headers. -/
def anoubisRetFlags (mask reply : U32) : U32 := reply &&& mask

/-- What `dispatch_m2p` reads from `struct eventdev_hdr`: the token, EVENTDEV_NEED_REPLY, and whether
    the source is one of those the policy engine must see in any case. -/
structure Hdr where
  token : ℕ
  needReply : Bool
  tracked : Bool
  deriving DecidableEq

/-- `struct anoubisd_reply`. -/
structure Reply where
  ask : Bool
  reply : U32
  timeout : ℤ
  hold : Bool
  deriving DecidableEq

/-- `struct reply_wait`. -/
structure ReplyWait where
  token : ℕ
  flags : U32
  starttime : ℤ
  timeout : ℤ
  deriving DecidableEq

/-- ANOUBISD_MSG_EVENTASK and ANOUBISD_MSG_EVENTCANCEL. -/
inductive ToSession where
  | ask (token : ℕ)
  | cancel (token : ℕ)
  deriving DecidableEq

/-- The static variables. `m2p`, `s2p`, `timer` and `signals` say which events are added. -/
structure State where
  terminate : ℕ
  m2p : Bool
  s2p : Bool
  timer : Bool
  signals : Bool
  replyq : List ReplyWait
  p2m : List (ℕ × U32)
  hold : List (ℕ × U32)
  p2s : List ToSession
  deriving DecidableEq

def State.init : State := ⟨0, true, true, true, true, [], [], [], []⟩

/-- The test of `dispatch_timer` for an event that stays. -/
def stays (terminate : ℕ) (now : ℤ) (w : ReplyWait) : Bool :=
  decide (terminate < 3) && decide (now < w.starttime + w.timeout)

/-- `dispatch_timer`. -/
def dispatchTimer (now : ℤ) (s : State) : State :=
  let gone := s.replyq.filter (fun w => !stays s.terminate now w)
  { s with
    replyq := s.replyq.filter (stays s.terminate now)
    p2m := s.p2m ++ gone.map (fun w => (w.token, BitVec.ofNat 32 eperm))
    p2s := s.p2s ++ gone.map (fun w => .cancel w.token)
    timer := if s.terminate < 3 then true else s.timer }

/-- One round of the loop of `set_terminate`. -/
def raise (now : ℤ) (s : State) : State :=
  let s := { s with terminate := s.terminate + 1 }
  if s.terminate = 1 then { s with signals := false, timer := false }
  else if s.terminate = 3 then dispatchTimer now s
  else s

/-- `set_terminate`. -/
def setTerminate (now : ℤ) (n : ℕ) (s : State) : State := (raise now)^[n - s.terminate] s

/-- `dispatch_m2p` on an event to which the policy engine replied. -/
def dispatchReply (mask : U32) (now : ℤ) (token : ℕ) (reply : Reply) (s : State) : State :=
  if reply.ask then
    { s with
      replyq := s.replyq ++ [⟨token, anoubisRetFlags mask reply.reply, now, reply.timeout⟩]
      p2s := s.p2s ++ [.ask token] }
  else if reply.hold then { s with hold := s.hold ++ [(token, reply.reply)] }
  else { s with p2m := s.p2m ++ [(token, reply.reply)] }

/-- Whether `dispatch_m2p` hands the event to the policy engine. -/
def Hdr.handled (hdr : Hdr) : Bool := hdr.needReply || hdr.tracked

/-- `dispatch_m2p` on ANOUBISD_MSG_EVENTDEV. -/
def dispatchEventdev (mask : U32) (now : ℤ) (hdr : Hdr) (reply : Option Reply) (s : State) : State :=
  if !hdr.handled then s
  else match reply with
    | none => s
    | some reply => dispatchReply mask now hdr.token reply s

/-- `dispatch_upgrade` on ANOUBISD_UPGRADE_END. -/
def upgradeEnd (s : State) : State := { s with p2m := s.p2m ++ s.hold, hold := [] }

/-- `dispatch_s2p` on ANOUBISD_MSG_EVENTREPLY. -/
def dispatchEventreply (token : ℕ) (reply : U32) (s : State) : State :=
  match s.replyq.find? (fun w => w.token == token) with
  | none => s
  | some w =>
    { s with
      replyq := s.replyq.eraseP (fun w => w.token == token)
      p2m := s.p2m ++ [(token, reply ||| w.flags)] }

inductive Op where
  | eventdev (hdr : Hdr) (reply : Option Reply) (now : ℤ)
  | upgradeEnd
  | eofMaster (now : ℤ)
  | eventreply (token : ℕ) (reply : U32)
  | eofSession (now : ℤ)
  | timer (now : ℤ)
  | sigterm (now : ℤ)
  deriving DecidableEq

/-- One round of the event loop; only events that are added occur. -/
def step (mask : U32) (s : State) : Op → Option State
  | .eventdev hdr reply now => if s.m2p then some (dispatchEventdev mask now hdr reply s) else none
  | .upgradeEnd => if s.m2p then some (upgradeEnd s) else none
  | .eofMaster now => if s.m2p then some { setTerminate now 2 s with m2p := false } else none
  | .eventreply token reply => if s.s2p then some (dispatchEventreply token reply s) else none
  | .eofSession now => if s.s2p then some (setTerminate now 3 { s with s2p := false }) else none
  | .timer now => if s.timer then some (dispatchTimer now { s with timer := false }) else none
  | .sigterm now => if s.signals then some (setTerminate now 1 s) else none

/-! ### Where a token is -/

/-- The tokens of the kernel events that came in. -/
def received (ops : List Op) : List ℕ :=
  ops.filterMap (fun op => match op with
    | .eventdev hdr _ _ => some hdr.token
    | _ => none)

/-- The token of an event that the policy engine replied to. -/
def Op.decides : Op → Option ℕ
  | .eventdev hdr (some _) _ => if hdr.handled then some hdr.token else none
  | _ => none

def decided (ops : List Op) : List ℕ := ops.filterMap Op.decides

/-- All tokens the process knows about. -/
def tokens (s : State) : List ℕ :=
  s.p2m.map Prod.fst ++ (s.replyq.map ReplyWait.token ++ s.hold.map Prod.fst)

theorem tokens_dispatchTimer (now : ℤ) (s : State) : (tokens (dispatchTimer now s)).Perm (tokens s) := by
  have hpart : (s.replyq.filter (fun w => !stays s.terminate now w) ++
      s.replyq.filter (stays s.terminate now)).Perm s.replyq :=
    (perm_append_comm).trans (filter_append_perm _ _)
  simp only [tokens, dispatchTimer, map_append, map_map, append_assoc]
  refine List.Perm.append_left _ ?_
  rw [← append_assoc]
  refine List.Perm.append_right _ ?_
  have hmap := hpart.map ReplyWait.token
  rw [map_append] at hmap
  exact hmap

theorem tokens_raise (now : ℤ) (s : State) : (tokens (raise now s)).Perm (tokens s) := by
  rw [raise]
  simp only
  split
  · exact .refl _
  · split
    · exact tokens_dispatchTimer now _
    · exact .refl _

theorem tokens_setTerminate (now : ℤ) (n : ℕ) (s : State) : (tokens (setTerminate now n s)).Perm (tokens s) := by
  rw [setTerminate]
  induction n - s.terminate generalizing s with
  | zero => exact .refl _
  | succ k ih =>
    rw [Function.iterate_succ_apply]
    exact (ih (raise now s)).trans (tokens_raise now s)

theorem tokens_dispatchReply (mask : U32) (now : ℤ) (token : ℕ) (reply : Reply) (s : State) :
    (tokens (dispatchReply mask now token reply s)).Perm (tokens s ++ [token]) := by
  rw [dispatchReply]
  split
  · simp only [tokens, map_append, append_assoc, map_cons, map_nil]
    refine List.Perm.append_left _ (List.Perm.append_left _ ?_)
    exact perm_append_comm
  · split
    · simp only [tokens, map_append, append_assoc, map_cons, map_nil]
      exact .refl _
    · simp only [tokens, map_append, append_assoc, map_cons, map_nil]
      refine List.Perm.append_left _ ?_
      have hcomm : ([token] ++ (s.replyq.map ReplyWait.token ++ s.hold.map Prod.fst)).Perm
          ((s.replyq.map ReplyWait.token ++ s.hold.map Prod.fst) ++ [token]) := perm_append_comm
      rwa [append_assoc] at hcomm

theorem tokens_dispatchEventreply (token : ℕ) (reply : U32) (s : State) :
    (tokens (dispatchEventreply token reply s)).Perm (tokens s) := by
  rw [dispatchEventreply]
  cases hf : s.replyq.find? (fun w => w.token == token) with
  | none => exact .refl _
  | some w =>
    have hw : w.token = token := by simpa using find?_some hf
    have hperm := (exists_eraseP hf).map ReplyWait.token
    rw [map_cons, hw] at hperm
    simp only [tokens, map_append, append_assoc, map_cons, map_nil]
    refine List.Perm.append_left _ ?_
    rw [← append_assoc]
    exact List.Perm.append_right _ hperm.symm

/-- Every step moves tokens between the queues, and only a decided event brings a new one. -/
theorem tokens_step {mask : U32} {s s' : State} {op : Op} (h : step mask s op = some s') :
    (tokens s').Perm (tokens s ++ op.decides.toList) := by
  have hsame : ∀ {s₁ : State}, (tokens s₁).Perm (tokens s) → (tokens s₁).Perm (tokens s ++ []) := by
    intro s₁ hp
    rwa [append_nil]
  cases op with
  | eventdev hdr reply now =>
    rw [step] at h
    split at h
    · cases h
      cases reply with
      | none =>
        rw [dispatchEventdev]
        split <;> exact hsame (.refl _)
      | some reply =>
        rw [dispatchEventdev]
        by_cases hh : hdr.handled = true
        · have hd : (Op.eventdev hdr (some reply) now).decides.toList = [hdr.token] := by
            simp [Op.decides, hh]
          rw [if_neg (by simp [hh]), hd]
          exact tokens_dispatchReply mask now hdr.token reply s
        · have hd : (Op.eventdev hdr (some reply) now).decides.toList = [] := by
            simp [Op.decides, hh]
          rw [if_pos (by simpa using hh), hd]
          exact hsame (.refl _)
    · cases h
  | upgradeEnd =>
    rw [step] at h
    split at h
    · cases h
      refine hsame ?_
      simp only [tokens, upgradeEnd, map_append, append_assoc, map_nil, append_nil]
      exact List.Perm.append_left _ perm_append_comm
    · cases h
  | eofMaster now =>
    rw [step] at h
    split at h
    · cases h
      exact hsame (tokens_setTerminate now 2 s)
    · cases h
  | eventreply token reply =>
    rw [step] at h
    split at h
    · cases h
      exact hsame (tokens_dispatchEventreply token reply s)
    · cases h
  | eofSession now =>
    rw [step] at h
    split at h
    · cases h
      exact hsame (tokens_setTerminate now 3 _)
    · cases h
  | timer now =>
    rw [step] at h
    split at h
    · cases h
      exact hsame (tokens_dispatchTimer now _)
    · cases h
  | sigterm now =>
    rw [step] at h
    split at h
    · cases h
      exact hsame (tokens_setTerminate now 1 s)
    · cases h

end Anoubis.Daemon.Policy

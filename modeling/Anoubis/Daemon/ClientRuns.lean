import Anoubis.Daemon.ClientMsg

/-! A client's stream of frames.

    `frames` cuts a stream into the messages it starts with and the rest. Whatever the cuts of read(2), the
    messages returned so far and those of the stream that is left are the messages of the whole stream;
    every call with reads that find something either returns a message or moves bytes, until nothing more
    can be said about the rest:

        │ frame │ frame │ …  │ incomplete frame │          waits for more
                             │ length < 8       │          refused
                             │ length > 16384   │ …        can never be complete -/

namespace Anoubis.Daemon.ClientMsg

open Option

open Anoubis.Lib List
open Anoubis.Daemon.Amsg (Bytes Io msgBufSize)
open Anoubis.Connection (u32)

/-! ### Frames -/

/-- The stream starts with a frame that fits into the buffer. -/
def Framed (t : Bytes) : Prop := Whole t ∧ 8 ≤ u32 t 0 ∧ u32 t 0 ≤ 2 * msgBufSize

instance (q : Bytes) : Decidable (Whole q) := inferInstanceAs (Decidable (_ ∧ _))

instance (t : Bytes) : Decidable (Framed t) := inferInstanceAs (Decidable (_ ∧ _))

/-- The bytes of every frame behind its length, and what is left. -/
def frames (t : Bytes) : List Bytes × Bytes :=
  if _h : Framed t then
    let r := frames (t.drop (u32 t 0))
    ((t.take (u32 t 0)).drop 4 :: r.1, r.2)
  else ([], t)
termination_by t.length
decreasing_by
  have := _h.1.2
  have := _h.2.1
  rw [List.length_drop]
  omega

/-- A length that no message has, or that no buffer holds. -/
def BadLength (t : Bytes) : Prop := 4 ≤ t.length ∧ (u32 t 0 < 8 ∨ 2 * msgBufSize < u32 t 0)

variable {t : Bytes} {c c' : Client} {k : Call} {ret : ℤ} {m : Option Bytes} {s : State}

theorem frames_framed (h : Framed t) : frames t =
    ((t.take (u32 t 0)).drop 4 :: (frames (t.drop (u32 t 0))).1, (frames (t.drop (u32 t 0))).2) := by
  rw [frames, dif_pos h]

theorem frames_rest (h : ¬ Framed t) : frames t = ([], t) := by
  rw [frames, dif_neg h]

/-- What a buffer holds of a stream tells the first frame of it. -/
theorem framed_append {q : Bytes} (d : Bytes) (hw : Whole q) (hlen : 8 ≤ u32 q 0)
    (hle : q.length ≤ 2 * msgBufSize) : Framed (q ++ d) ∧ u32 (q ++ d) 0 = u32 q 0 := by
  have hu := u32_append d hw.1
  have hwhole := hw.2
  refine ⟨⟨⟨?_, ?_⟩, ?_, ?_⟩, hu⟩
  · have := hw.1
    rw [length_append]
    omega
  · rw [hu, length_append]
    omega
  · rwa [hu]
  · rw [hu]
    omega

/-! ### Runs -/

/-- A client and what was returned for it. -/
structure State where
  client : Client
  returned : List Bytes

/-- The buffer is new, and the kernel holds the whole stream. -/
def start (mem data : Bytes) (closed : Bool) : State := ⟨⟨⟨mem, 0, 0, none, false⟩, data, closed⟩, []⟩

def step (s : State) (k : Call) : Option State :=
  (getClientMsg s.client k).map fun r => ⟨r.2.2, s.returned ++ r.2.1.toList⟩

/-- A call whose reads take what there is, with memory for the message. -/
def Call.live (k : Call) : Bool := k.io != .again && k.io' != .again && k.memory

/-- The bytes that have not been returned yet. -/
def stream (c : Client) : Bytes := pending c.mbp ++ c.data

/-- The reads and the messages that are left, at most. -/
def weight (c : Client) : ℕ := 2 * c.data.length + (pending c.mbp).length

/-- Nothing more can be learnt about the rest of the stream. -/
def Settled (c : Client) : Prop :=
  ¬ Framed (stream c) ∧ (4 ≤ (stream c).length → u32 (stream c) 0 < 8 → u32 (stream c) 0 ≤ (stream c).length →
    Whole (pending c.mbp))

/-- The state behind calls that returned the first messages of the stream `t`. -/
structure Inv (t : Bytes) (s : State) : Prop where
  valid : Valid s.client.mbp
  rmsg : s.client.mbp.rmsg = none
  messages : (frames t).1 = s.returned ++ (frames (stream s.client)).1
  rest : (frames t).2 = (frames (stream s.client)).2

theorem inv_start {mem : Bytes} (hmem : mem.length = 2 * msgBufSize) (t : Bytes) (closed : Bool) :
    Inv t (start mem t closed) := by
  have hstream : stream (start mem t closed).client = t := by
    simp [stream, start, pending]
  refine ⟨⟨hmem, le_refl _, Nat.zero_le _⟩, rfl, ?_, ?_⟩
  · rw [hstream]
    rfl
  · rw [hstream]

/-- The outcomes of a call, as seen in the stream. -/
theorem Called.stream_cases (h : Called c k ret m c') : (m = none ∧ stream c' = stream c) ∨
      (Framed (stream c) ∧ m = some (((stream c).take (u32 (stream c) 0)).drop 4) ∧
        stream c' = (stream c).drop (u32 (stream c) 0)) := by
  obtain ⟨got, hd, hle, ha⟩ := h.moved
  have hsame : stream c = pending c.mbp ++ got ++ c'.data := by
    rw [stream, hd, append_assoc]
  cases ha with
  | waits _ hp => exact .inl ⟨rfl, by rw [stream, hp, hsame]⟩
  | refuses hp => exact .inl ⟨rfl, by rw [stream, hp, hsame]⟩
  | returns hp hw hlen =>
    obtain ⟨hf, hu⟩ := framed_append c'.data hw hlen hle
    rw [hsame, hu]
    refine .inr ⟨hf, ?_, ?_⟩
    · rw [take_append_of_le_length hw.2]
    · rw [stream, hp, drop_append_of_le_length hw.2]

theorem inv_step {s' : State} (hi : Inv t s) (h : step s k = some s') : Inv t s' := by
  obtain ⟨ret, m, c', hcall, hc⟩ := getClientMsg_called hi.valid hi.rmsg k
  rw [step, hcall] at h
  cases h
  refine ⟨hc.valid, hc.rmsg, ?_, ?_⟩
  · rcases hc.stream_cases with ⟨rfl, hs⟩ | ⟨hf, rfl, hs⟩
    · simpa [hs] using hi.messages
    · rw [hi.messages, frames_framed hf, hs]
      simp
  · rcases hc.stream_cases with ⟨rfl, hs⟩ | ⟨hf, rfl, hs⟩
    · rw [hi.rest, hs]
    · rw [hi.rest, frames_framed hf, hs]

/-- A call with nothing in its way settles the rest of the stream, or less is left behind it. -/
theorem settled_or_less (h : Called c k ret m c') (hlive : k.live = true) : Settled c' ∨ weight c' < weight c := by
  obtain ⟨⟨hio, hio'⟩, hmem⟩ : (k.io ≠ .again ∧ k.io' ≠ .again) ∧ k.memory = true := by
    simpa [Call.live] using hlive
  obtain ⟨got, hd, hle, ha⟩ := h.moved
  have hdata : c.data.length = got.length + c'.data.length := by
    rw [hd, length_append]
  have hq : (pending c.mbp ++ got).length = (pending c.mbp).length + got.length := length_append
  cases ha with
  | waits _ hp hw hidle =>
    by_cases hgot : got = []
    · left
      rcases hidle hio hio' hgot with hnil | hfull
      · -- everything was read, and it is not enough
        rw [hgot] at hd hp hw
        have hs : stream c' = pending c.mbp ++ [] := by
          rw [stream, hp, (append_eq_nil_iff.mp (hd.symm.trans hnil)).2, append_nil]
        rw [Settled, hs]
        exact ⟨fun hf => hw hf.1, fun h4 _ hlen => absurd ⟨h4, hlen⟩ hw⟩
      · -- the buffer is full, and the frame is longer
        have h4 : 4 ≤ (pending c.mbp ++ got).length := by
          unfold msgBufSize at hfull
          omega
        have hlong : (pending c.mbp ++ got).length < u32 (pending c.mbp ++ got) 0 :=
          Nat.lt_of_not_le fun hlen => hw ⟨h4, hlen⟩
        have hu : u32 (stream c') 0 = u32 (pending c.mbp ++ got) 0 := by
          rw [stream, hp, u32_append c'.data h4]
        unfold msgBufSize at hfull
        refine ⟨fun hf => ?_, fun _ hlt _ => ?_⟩
        · have := hf.2.2
          unfold msgBufSize at this
          omega
        · omega
    · right
      have := length_pos_of_ne_nil hgot
      rw [weight, weight, hp, hdata, hq]
      omega
  | refuses hp hw hbad =>
    left
    have hshort : u32 (pending c.mbp ++ got) 0 < 8 := by
      rcases hbad with hshort | hno
      · exact hshort
      · rw [hmem] at hno
        cases hno
    have hu : u32 (stream c') 0 = u32 (pending c.mbp ++ got) 0 := by
      rw [stream, hp, u32_append c'.data hw.1]
    refine ⟨fun hf => ?_, fun _ _ _ => hp ▸ hw⟩
    have := hf.2.1
    omega
  | returns hp hw hlen =>
    right
    have := hw.2
    rw [weight, weight, hp, hdata, length_drop, hq]
    omega

/-- No call brings anything back. -/
theorem Called.weight_le (h : Called c k ret m c') : weight c' ≤ weight c := by
  obtain ⟨got, hd, -, ha⟩ := h.moved
  have hdata : c.data.length = got.length + c'.data.length := by
    rw [hd, length_append]
  have hq : (pending c.mbp ++ got).length = (pending c.mbp).length + got.length := length_append
  have hle : (pending c'.mbp).length ≤ (pending c.mbp).length + got.length := by
    cases ha with
    | waits _ hp => rw [hp, hq]
    | refuses hp => rw [hp, hq]
    | returns hp =>
      rw [hp, length_drop, hq]
      omega
  rw [weight, weight]
  omega

/-- No call unsettles it. -/
theorem settled_step (h : Called c k ret m c') (hs : Settled c) : Settled c' ∧ m = none := by
  rcases h.stream_cases with ⟨hm, hsame⟩ | ⟨hf, -⟩
  · refine ⟨⟨hsame ▸ hs.1, fun h4 hlt hle => ?_⟩, hm⟩
    rw [hsame] at h4 hlt hle
    have hw := hs.2 h4 hlt hle
    obtain ⟨got, -, -, ha⟩ := h.moved
    have hmore : Whole (pending c.mbp ++ got) := by
      rw [Whole, u32_append got hw.1, length_append]
      exact ⟨by have := hw.1; omega, by have := hw.2; omega⟩
    cases ha with
    | waits _ hp => exact hp ▸ hmore
    | refuses hp => exact hp ▸ hmore
    | returns => cases hm
  · exact absurd hf hs.1

/-! ### All runs -/

/-- What holds behind the calls `ks`: at most so many of them were needed. -/
def RunInv (t : Bytes) (s : State) (ks : List Call) : Prop :=
  Inv t s ∧ (Settled s.client ∨ ks.countP Call.live + weight s.client ≤ 2 * t.length)

theorem runInv_step {s' : State} {ks : List Call} (hi : RunInv t s ks) (h : step s k = some s') :
    RunInv t s' (ks ++ [k]) := by
  refine ⟨inv_step hi.1 h, ?_⟩
  obtain ⟨ret, m, c', hcall, hc⟩ := getClientMsg_called hi.1.valid hi.1.rmsg k
  rw [step, hcall] at h
  cases h
  rcases hi.2 with hs | hw
  · exact .inl (settled_step hc hs).1
  · rw [countP_append, countP_singleton]
    cases hk : k.live with
    | true =>
      rcases settled_or_less hc hk with hs | hlt
      · exact .inl hs
      · right
        rw [if_pos rfl]
        change _ + weight c' ≤ _
        omega
    | false =>
      right
      rw [if_neg (by simp)]
      have := hc.weight_le
      change _ + weight c' ≤ _
      omega

/-- No call fails. -/
theorem runs_some (hi : Inv t s) (ks : List Call) : ∃ s', runs step s ks = some s' := by
  induction ks generalizing s with
  | nil => exact ⟨s, rfl⟩
  | cons k ks ih =>
    obtain ⟨ret, m, c', hcall, -⟩ := getClientMsg_called hi.valid hi.rmsg k
    have hstep : step s k = some ⟨c', s.returned ++ m.toList⟩ := by
      rw [step, hcall]
      rfl
    obtain ⟨s', hr⟩ := ih (inv_step hi hstep)
    exact ⟨s', by rw [runs, hstep, bind_some, hr]⟩

/-- For the stream `t`: no access leaves the received data, the returned messages are the first of the
    stream's, and calls enough return all of them; behind these, every call refuses a bad length. -/
def Correct (t : Bytes) (closed : Bool) : Prop :=
  ∀ mem : Bytes, mem.length = 2 * msgBufSize → ∃ n, ∀ ks, ∃ s,
    runs step (start mem t closed) ks = some s ∧ s.returned <+: (frames t).1 ∧
      (n ≤ ks.countP Call.live → s.returned = (frames t).1 ∧
        (BadLength (frames t).2 → ∀ k, ∃ ret c', getClientMsg s.client k = some (ret, none, c') ∧ ret < 0))

/-- Behind calls enough, the stream is settled. -/
theorem run_settles {mem : Bytes} (hmem : mem.length = 2 * msgBufSize) (t : Bytes) (closed : Bool)
    {ks : List Call} (hr : runs step (start mem t closed) ks = some s) :
    Inv t s ∧ (2 * t.length < ks.countP Call.live → Settled s.client) := by
  have h0 : RunInv t (start mem t closed) [] := by
    refine ⟨inv_start hmem t closed, .inr ?_⟩
    simp [weight, start, pending]
  have hi := runs_remember (I := RunInv t) (fun s ks k s' hi h => runInv_step hi h) h0 hr
  refine ⟨hi.1, fun hlt => ?_⟩
  rcases hi.2 with hs | hw
  · exact hs
  · omega

/-- A settled client has all its messages, and what is left of the stream is its rest. -/
theorem Inv.settled (hi : Inv t s) (hs : Settled s.client) :
    s.returned = (frames t).1 ∧ (frames t).2 = stream s.client := by
  have hf := frames_rest hs.1
  have hm := hi.messages
  rw [hf, append_nil] at hm
  exact ⟨hm.symm, by rw [hi.rest, hf]⟩

/-- The length that is refused: too short for a message, and all of its bytes are there. -/
def Refusable (r : Bytes) : Prop := u32 r 0 < 8 ∧ u32 r 0 ≤ r.length

theorem refused (hi : Inv t s) (hcall : getClientMsg s.client ⟨.upto 0, .upto 0, true⟩ = some (ret, none, c'))
    (hneg : ret < 0) : Refusable (stream s.client) := by
  obtain ⟨ret', m, c'', hcall', hc⟩ := getClientMsg_called hi.valid hi.rmsg ⟨.upto 0, .upto 0, true⟩
  obtain ⟨rfl, hm⟩ := Prod.mk.inj (some.inj (hcall'.symm.trans hcall))
  obtain ⟨rfl, rfl⟩ := Prod.mk.inj hm
  obtain ⟨got, hd, -, ha⟩ := hc.moved
  have hs : stream s.client = pending s.client.mbp ++ got ++ c''.data := by
    rw [stream, hd, append_assoc]
  cases ha with
  | waits hret => omega
  | refuses hp hw hbad =>
    have hshort : u32 (pending s.client.mbp ++ got) 0 < 8 := by simpa using hbad
    rw [hs, Refusable, u32_append _ hw.1, length_append]
    exact ⟨hshort, by have := hw.2; omega⟩

theorem refuses (h : Called c k ret m c') (hs : Settled c) (h4 : 4 ≤ (stream c).length)
    (href : Refusable (stream c)) : m = none ∧ ret < 0 := by
  have hw := hs.2 h4 href.1 href.2
  obtain ⟨got, -, -, ha⟩ := h.moved
  cases ha with
  | waits _ _ hnot =>
    refine absurd ?_ hnot
    rw [Whole, u32_append got hw.1, length_append]
    exact ⟨by have := hw.1; omega, by have := hw.2; omega⟩
  | refuses => exact ⟨rfl, by decide⟩
  | returns => exact absurd (settled_step h hs).2 (by simp)

/-- Only a refusable length is answered. -/
theorem Correct.refusable {closed : Bool} (h : Correct t closed) (hbad : BadLength (frames t).2) :
    Refusable (frames t).2 := by
  have hmem : (List.replicate (2 * msgBufSize) (0 : UInt8)).length = 2 * msgBufSize := length_replicate
  obtain ⟨n, hn⟩ := h _ hmem
  obtain ⟨s, hr, -, hall⟩ := hn (List.replicate (max n (2 * t.length + 1)) ⟨.upto 0, .upto 0, true⟩)
  have hcount : (List.replicate (max n (2 * t.length + 1)) (⟨.upto 0, .upto 0, true⟩ : Call)).countP
      Call.live = max n (2 * t.length + 1) := by
    rw [countP_replicate, if_pos (by decide)]
  rw [hcount] at hall
  obtain ⟨hi, hset⟩ := run_settles hmem t closed hr
  rw [hcount] at hset
  obtain ⟨-, hrest⟩ := hi.settled (hset (by omega))
  obtain ⟨ret, c', hcall, hneg⟩ := (hall (by omega)).2 hbad ⟨.upto 0, .upto 0, true⟩
  rw [hrest]
  exact refused hi hcall hneg

/-- The framing is right for exactly the streams whose rest has no length that the buffer never holds, and
    no short one that its own bytes are missing of. -/
theorem getClientMsg_correct_iff (t : Bytes) (closed : Bool) :
    Correct t closed ↔ (BadLength (frames t).2 → Refusable (frames t).2) := by
  constructor
  · exact fun h hbad => h.refusable hbad
  · intro h mem hmem
    refine ⟨2 * t.length + 1, fun ks => ?_⟩
    obtain ⟨s, hr⟩ := runs_some (inv_start hmem t closed) ks
    obtain ⟨hi, hset⟩ := run_settles hmem t closed hr
    refine ⟨s, hr, ⟨_, hi.messages.symm⟩, fun hlt => ?_⟩
    obtain ⟨hall, hrest⟩ := hi.settled (hset hlt)
    refine ⟨hall, fun hbad k => ?_⟩
    have href := h hbad
    rw [hrest] at href
    obtain ⟨ret, m, c', hcall, hc⟩ := getClientMsg_called hi.valid hi.rmsg k
    obtain ⟨rfl, hneg⟩ := refuses hc (hset hlt) (hrest ▸ hbad.1) href
    exact ⟨ret, c', hcall, hneg⟩

/-- A complete frame of 16385 bytes. -/
def longFrame : Bytes := [0, 0, 64, 1] ++ List.replicate 16381 0

/-- It is never answered, although all of it was sent. -/
theorem not_correct_longFrame : ¬ Correct longFrame false := by
  intro h
  have hu : u32 longFrame 0 = 16385 := (u32_append _ (by decide)).trans (by decide)
  have hlen : longFrame.length = 16385 := by
    simp only [longFrame, List.length_append, List.length_replicate, List.length_cons, List.length_nil]
  have hrest : (frames longFrame).2 = longFrame := by
    rw [frames_rest]
    intro hf
    have := hf.2.2
    rw [hu] at this
    exact absurd this (by decide)
  have href := h.refusable (hrest.symm ▸ ⟨by omega, Or.inr (by rw [hu]; decide)⟩)
  rw [hrest, Refusable, hu] at href
  exact absurd href.1 (by decide)

end Anoubis.Daemon.ClientMsg

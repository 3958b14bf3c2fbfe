import Anoubis.Daemon.Pipe

/-! The internal pipes lose nothing.

    The messages that `send_msg` accepted are those that `get_msg` returned and, behind them, those whose
    bytes are between the two ends:

        accepted  =  delivered  ++  new,      new  =  unread bytes

    Every call keeps this. Once the writer has closed and the reader has seen the end of the file, less than
    a header is left, and so no message. -/

namespace Anoubis.Daemon.Amsg

open List

open Anoubis.Lib Option

variable {sz : Bytes → ℤ}

/-! ### Runs -/

/-- The messages that `dispatch_write_queue` handed over. -/
def handed (s : State) : List Msg := (s.accepted.filter Prod.fst).map Prod.snd

/-- The delivered messages are the older ones of those accepted; the others are the stream. -/
structure Flow (sz : Bytes → ℤ) (s : State) : Prop where
  fits : ∀ a ∈ s.accepted, Fits sz a.2
  writer : WriterOk s.pipe
  reader : ReaderOk s.pipe
  stream : ∃ old new, s.accepted.map Prod.snd = old ++ new ∧ s.delivered = old.map (wire sz) ∧
    (new.map (wire sz)).flatten = unread s.pipe

theorem flow_init : Flow sz State.init :=
  ⟨fun _ ha => absurd ha not_mem_nil, nofun, ⟨nofun, nofun⟩, [], [], rfl, rfl, rfl⟩

variable {s : State}

/-- A call of the writer that accepted `ms`. -/
theorem Flow.append (h : Flow sz s) {p : Pipe} (ms : List Msg) {b : Bool}
    (ha : Appends s.pipe (ms.map (wire sz)).flatten p) (hms : ∀ m ∈ ms, Fits sz m)
    (hopen : ¬ s.pipe.closed = true) (queue : List Msg) :
    Flow sz { s with pipe := p, queue := queue, accepted := s.accepted ++ ms.map (b, ·) } := by
  obtain ⟨old, new, hacc, hdel, hnew⟩ := h.stream
  refine ⟨fun a hm => ?_, ha.ok, ⟨fun m hm => ?_, fun heof => ?_⟩, old, new ++ ms, ?_, hdel, ?_⟩
  · rcases mem_append.mp hm with hm | hm
    · exact h.fits a hm
    · obtain ⟨m, hin, rfl⟩ := mem_map.mp hm
      exact hms m hin
  · rw [ha.rx] at hm ⊢
    exact h.reader.rmsg m hm
  · simp only [ha.rx] at heof
    exact absurd (h.reader.eof heof).2 hopen
  · simp [hacc, Function.comp_def]
  · rw [map_append, flatten_append, hnew, unread, unread, ha.rx, ha.stream]
    simp only [append_assoc]

theorem Flow.fits_new (h : Flow sz s) {old new : List Msg} (hacc : s.accepted.map Prod.snd = old ++ new) :
    ∀ m ∈ new, Fits sz m := by
  intro m hm
  have hin : m ∈ s.accepted.map Prod.snd := hacc ▸ mem_append_right old hm
  obtain ⟨a, ha, rfl⟩ := mem_map.mp hin
  exact h.fits a ha

/-- A call of the reader. -/
theorem flow_get (hsz : Sizing sz) (ev : Bool) (h : Flow sz s) (io : Io) :
    ∃ s', step sz ev s (.get io) = some s' ∧ Flow sz s' ∧ s'.pipe.closed = s.pipe.closed ∧
      s'.pipe.tx = s.pipe.tx ∧ weight s'.pipe ≤ weight s.pipe ∧
      (s.pipe.closed = true → unsent s.pipe.tx = [] → io ≠ .again →
        weight s'.pipe < weight s.pipe ∨ msgEof s'.pipe.rx = true) ∧
      (msgEof s.pipe.rx = true → msgEof s'.pipe.rx = true) := by
  obtain ⟨old, new, hacc, hdel, hnew⟩ := h.stream
  have hfit : ∀ m ∈ new, Fits sz m := h.fits_new hacc
  obtain ⟨r, p, hget, hreads⟩ := getMsg_spec hsz h.reader hfit hnew io
  have hwriter : WriterOk p := by
    intro m hm
    rw [hreads.tx] at hm ⊢
    exact h.writer m hm
  refine ⟨{ s with pipe := p, delivered := s.delivered ++ r.toList }, ?_, ?_, hreads.closed, hreads.tx,
    hreads.weight_le, hreads.progress, hreads.eof⟩
  · rw [step, hget]
    rfl
  · refine ⟨h.fits, hwriter, hreads.ok, ?_⟩
    rcases hreads.stream with ⟨rfl, hu⟩ | ⟨m, new', rfl, rfl, hu⟩
    · exact ⟨old, new, hacc, by simpa using hdel, hnew.trans hu.symm⟩
    · exact ⟨old ++ [m], new', by simp [hacc], by simp [hdel], hu⟩

theorem flow_step (hsz : Sizing sz) {ev : Bool} {s' : State} {op : Op} (h : Flow sz s)
    (hs : step sz ev s op = some s') : Flow sz s' := by
  cases op with
  | send msg io io' =>
    rw [step] at hs
    split at hs
    · cases hs
    rename_i hopen
    obtain ⟨⟨ret, p⟩, hsend, rfl⟩ := map_eq_some_iff.mp hs
    rcases sendMsg_spec hsz h.writer hsend with ⟨hpos, ha, hfit⟩ | ⟨hle, ha, -⟩
    · simp only [hpos, if_true]
      exact h.append _ ha (fun m hm => hfit m (mem_toList.mp hm)) hopen s.queue
    · have hret : ¬ ret > 0 := by omega
      simp only [hret, if_false]
      exact h.append [] ha (fun _ hm => absurd hm not_mem_nil) hopen s.queue
  | enqueue msg =>
    rw [← some.inj hs]
    exact ⟨h.fits, h.writer, h.reader, h.stream⟩
  | dispatch rounds =>
    rw [step] at hs
    split at hs
    · cases hs
    rename_i hopen
    obtain ⟨w, hw, rfl⟩ := map_eq_some_iff.mp hs
    obtain ⟨ha, hfit, -⟩ := writeLoop_spec hsz h.writer hw
    exact h.append w.sent ha hfit hopen w.queue
  | close =>
    rw [← some.inj hs]
    exact ⟨h.fits, h.writer, ⟨h.reader.rmsg, fun heof => ⟨(h.reader.eof heof).1, rfl⟩⟩, h.stream⟩
  | get io =>
    obtain ⟨s₁, hs₁, hflow, -⟩ := flow_get hsz ev h io
    rw [← some.inj (hs₁.symm.trans hs)]
    exact hflow

/-- Behind the end of the file there is no message left. -/
theorem Flow.whole (hsz : Sizing sz) (h : Flow sz s) (hflushed : msgPending s.pipe = false)
    (hend : msgEof s.pipe.rx = true) : s.delivered = s.accepted.map (fun a => wire sz a.2) := by
  obtain ⟨old, new, hacc, hdel, hnew⟩ := h.stream
  have hfit : ∀ m ∈ new, Fits sz m := h.fits_new hacc
  have hunsent : unsent s.pipe.tx = [] := by
    rw [msgPending, isSome_eq_false_iff, isNone_iff_eq_none] at hflushed
    rw [unsent, hflushed]
  have hdata := (h.reader.eof (iseof_of_msgEof hend)).1
  have hnil : new = [] := by
    cases hm : s.pipe.rx.rmsg with
    | some m₀ =>
      -- a message that was cut off is longer than all that is left
      obtain ⟨hbuf, hhdr, hlt⟩ := h.reader.rmsg m₀ hm
      rw [unread, hm, hbuf, hdata, hunsent] at hnew
      obtain ⟨m, new', -, -, hsize, happ⟩ := exists_next hsz hfit (a := m₀) (c := []) (by simpa using hnew) hhdr
      have hlen := congrArg List.length happ
      simp only [length_append, length_wire, length_nil] at hlen
      omega
    | none =>
      have hshort : s.pipe.rx.rbuf.length < hdrSize := by
        simpa [msgEof, iseof_of_msgEof hend, hm] using hend
      rw [unread, hm, hdata, hunsent] at hnew
      have hmap : new.map (wire sz) = [] :=
        eq_nil_of_short (isBlock_of_fits hsz hfit) (by rw [hnew]; simpa using hshort)
      exact map_eq_nil_iff.mp hmap
  rw [hnil, List.append_nil] at hacc
  rw [hdel, ← hacc, List.map_map]
  rfl

/-- A call that was not interrupted. -/
def Io.done : Io → Bool
  | .again => false
  | .upto _ => true

/-- Behind the close every call of `get_msg` that is not interrupted brings the reader closer to the end
    of the file. -/
theorem Flow.reaches (hsz : Sizing sz) {ev : Bool} {ios : List Io} (h : Flow sz s) (hcl : s.pipe.closed = true)
    (hflushed : unsent s.pipe.tx = []) (hn : msgEof s.pipe.rx = true ∨ weight s.pipe < ios.countP Io.done) :
    ∃ s', runs (step sz ev) s (ios.map .get) = some s' ∧ msgEof s'.pipe.rx = true := by
  induction ios generalizing s with
  | nil =>
    rcases hn with hend | hn
    · exact ⟨s, rfl, hend⟩
    · exact absurd hn (Nat.not_lt_zero _)
  | cons io ios ih =>
    obtain ⟨s₁, hs₁, hflow, hcl₁, htx₁, hle, hprog, heof⟩ := flow_get hsz ev h io
    rw [map_cons, runs, hs₁, bind_some]
    refine ih hflow (hcl₁.trans hcl) (by rw [htx₁, hflushed]) ?_
    rcases hn with hend | hn
    · exact .inl (heof hend)
    · rw [countP_cons] at hn
      cases io with
      | again =>
        simp only [Io.done, Bool.false_eq_true, if_false] at hn
        exact .inr (by omega)
      | upto n =>
        simp only [Io.done, if_true] at hn
        rcases hprog hcl hflushed (by simp) with hlt | hend
        · exact .inr (by omega)
        · exact .inl hend

/-- The queue: what was handed over and what waits is what was put on it. -/
def Queued (s : State) : Prop :=
  (∀ m ∈ s.enqueued, m.bytes.length ≤ msgSizeLimit) → handed s ++ s.queue = s.enqueued

theorem queued_step (hsz : Sizing sz) {s' : State} {op : Op} (h : Flow sz s) (hq : Queued s)
    (hs : step sz true s op = some s') : Queued s' := by
  cases op with
  | send msg io io' =>
    rw [step] at hs
    split at hs
    · cases hs
    obtain ⟨⟨ret, p⟩, -, rfl⟩ := map_eq_some_iff.mp hs
    intro hle
    simpa [handed, List.filter_map, Function.comp_def] using hq hle
  | enqueue msg =>
    rw [← some.inj hs]
    intro hle
    have hold := hq (fun m hm => hle m (mem_append_left _ hm))
    simp [← hold, handed]
  | dispatch rounds =>
    rw [step] at hs
    split at hs
    · cases hs
    obtain ⟨w, hw, rfl⟩ := map_eq_some_iff.mp hs
    intro hle
    have hold := hq hle
    have hqueue : ∀ m ∈ s.queue, m.bytes.length ≤ msgSizeLimit := by
      intro m hm
      exact hle m (hold ▸ mem_append_right _ hm)
    obtain ⟨-, -, hsent⟩ := writeLoop_spec hsz h.writer hw
    calc handed { s with pipe := w.pipe, queue := w.queue, accepted := s.accepted ++ w.sent.map (true, ·) } ++
          w.queue
        = handed s ++ (w.sent ++ w.queue) := by simp [handed, List.filter_map, Function.comp_def]
      _ = handed s ++ s.queue := by rw [hsent rfl hqueue]
      _ = s.enqueued := hold
  | close =>
    rw [← some.inj hs]
    exact hq
  | get io =>
    obtain ⟨⟨r, p⟩, -, rfl⟩ := map_eq_some_iff.mp hs
    exact hq

/-- What holds whenever the two ends are between calls. -/
structure Lossless (sz : Bytes → ℤ) (s : State) : Prop where
  /-- `get_msg` returned the messages `send_msg` accepted, in order, with their padding filled. -/
  inOrder : s.delivered <+: s.accepted.map (fun a => wire sz a.2)
  /-- `get_msg` does not terminate the daemon. -/
  returns : ∀ io, (getMsg sz s.pipe io).isSome
  /-- The writer closed behind a flush and `msg_eof` is true: these were all. -/
  whole : s.pipe.closed = true → msgPending s.pipe = false → msgEof s.pipe.rx = true →
    s.delivered = s.accepted.map (fun a => wire sz a.2)
  /-- And `msg_eof` becomes true. -/
  reaches : s.pipe.closed = true → msgPending s.pipe = false → ∀ ios : List Io,
    weight s.pipe < ios.countP Io.done →
      ∃ s', runs (step sz true) s (ios.map .get) = some s' ∧ msgEof s'.pipe.rx = true
  /-- `dispatch_write_queue` hands over the queued messages in order, each once, and keeps the others. -/
  queued : (∀ m ∈ s.enqueued, m.bytes.length ≤ msgSizeLimit) → handed s ++ s.queue = s.enqueued
  /-- `dispatch_write_queue` returns. -/
  dispatches : s.pipe.closed = false → (∀ m ∈ s.queue, (amsgVerify sz m.bytes).isSome) →
    ∀ rounds : List (Io × Io), s.queue.length < rounds.length →
      (dispatchWriteQueue sz true rounds s.queue s.pipe).isSome

/-- The internal pipes are lossless, over all short reads and writes and all orders of calls. -/
theorem pipes_lossless (hsz : Sizing sz) {ops : List Op} {s : State}
    (hrun : runs (step sz true) State.init ops = some s) : Lossless sz s := by
  have hinv : Flow sz s ∧ Queued s := by
    refine runs_keep (I := fun s => Flow sz s ∧ Queued s) ?_ ⟨flow_init, fun _ => rfl⟩ hrun
    rintro s op s' ⟨hflow, hq⟩ hs
    exact ⟨flow_step hsz hflow hs, queued_step hsz hflow hq hs⟩
  obtain ⟨hflow, hq⟩ := hinv
  have hunsent : msgPending s.pipe = false → unsent s.pipe.tx = [] := by
    intro hflushed
    rw [msgPending, Option.isSome_eq_false_iff, Option.isNone_iff_eq_none] at hflushed
    rw [unsent, hflushed]
  refine ⟨?_, fun io => ?_, fun _ => hflow.whole hsz, ?_, hq, fun _ hv rounds => writeLoop_returns hv⟩
  · obtain ⟨old, new, hacc, hdel, -⟩ := hflow.stream
    refine ⟨new.map (wire sz), ?_⟩
    rw [hdel, ← List.map_append, ← hacc, List.map_map]
    rfl
  · obtain ⟨s', hs', -⟩ := flow_get hsz true hflow io
    obtain ⟨x, hx, -⟩ := Option.map_eq_some_iff.mp hs'
    rw [hx]
    rfl
  · intro hcl hflushed ios hn
    exact hflow.reaches hsz hcl (hunsent hflushed) (Or.inr hn)

/-! ### An answer without data

    The record of an ANOUBISD_MSG_POLREPLY ends with a short at offset 16 of 24 bytes, and its data starts
    right behind it: 6 bytes of padding where there is none. -/

/-- SIZE_LIMIT of `amsg_verify.c`. -/
def sizeLimit : ℤ := 50000

/-- `anoubisd_msg_size` for ANOUBISD_MSG_POLREPLY, with `anoubisd_msg_polreply_size`; other types are not
    sent here. -/
def polreplySize (m : Bytes) : ℤ :=
  let mtype := int (m.getD 4 0) (m.getD 5 0) (m.getD 6 0) (m.getD 7 0)
  let len : ℤ := ((m.getD 24 0).toNat + 256 * (m.getD 25 0).toNat : ℤ).bmod 65536
  let buflen : ℤ := m.length - 26
  if mtype ≠ 2 ∨ m.length < 32 then -1
  else if len < 0 ∨ buflen > sizeLimit ∨ len > buflen then -1
  else 26 + len

theorem getD_fillFrom {n i : ℕ} (m : Bytes) (h : i < n) : (fillFrom n m).getD i 0 = m.getD i 0 := by
  rw [getD_eq_getElem?_getD, getD_eq_getElem?_getD, fillFrom, getElem?_mapIdx]
  cases m[i]? with
  | none => rfl
  | some b => simp [h]

theorem sizing_polreply : Sizing polreplySize := by
  have hmin : ∀ m, 0 ≤ polreplySize m → 26 ≤ polreplySize m := by
    intro m h
    simp only [polreplySize] at h ⊢
    split at h
    · omega
    split at h
    · omega
    · rename_i h₁ h₂
      rw [if_neg h₁, if_neg h₂]
      omega
  refine ⟨fun m h => ?_, fun m h _ => ?_⟩
  · have := hmin m h
    unfold hdrSize
    omega
  · have hkeep : ∀ i < 26, (fillFrom (polreplySize m).toNat m).getD i 0 = m.getD i 0 := by
      intro i hi
      have := hmin m h
      exact getD_fillFrom m (by omega)
    rw [polreplySize, length_fillFrom, hkeep 4 (by decide), hkeep 5 (by decide), hkeep 6 (by decide),
      hkeep 7 (by decide), hkeep 24 (by decide), hkeep 25 (by decide), polreplySize]

/-- The answer of `pe_dispatch_policy` to a finished request: 32 bytes, the last 6 are zero. -/
def polreply : Msg where
  bytes := [32, 0, 0, 0, 2, 0, 0, 0, 1, 0, 0, 16, 0, 0, 0, 0, 0, 0, 0, 0, 3, 0, 0, 0, 0, 0, 0, 0, 0, 0, 0, 0]
  header := by decide
  size_eq := by decide

theorem pipes_lossless_polreply : ∃ s, runs (step polreplySize true) State.init
    [.enqueue polreply, .dispatch [(.again, .upto 20), (.upto 99, .again)], .get (.upto 9), .get (.upto 99)] =
      some s ∧ s.delivered = [wire polreplySize polreply] ∧ Lossless polreplySize s := by
  have hrun : (runs (step polreplySize true) State.init
      [.enqueue polreply, .dispatch [(.again, .upto 20), (.upto 99, .again)], .get (.upto 9),
        .get (.upto 99)]).map State.delivered = some [wire polreplySize polreply] := by decide +kernel
  obtain ⟨s, hs, hd⟩ := Option.map_eq_some_iff.mp hrun
  exact ⟨s, hs, hd, pipes_lossless sizing_polreply hs⟩

/-- The bytes that were accepted are not those that arrive: the last six are overwritten. -/
theorem padding_overwritten : ∃ s, runs (step polreplySize true) State.init
    [.send (some polreply) .again (.upto 99), .get (.upto 99)] = some s ∧
      ¬ s.delivered <+: s.accepted.map (fun a => a.2.bytes) := by
  have hrun : (runs (step polreplySize true) State.init
      [.send (some polreply) .again (.upto 99), .get (.upto 99)]).map
        (fun s => decide (s.delivered <+: s.accepted.map (fun a => a.2.bytes))) = some false := by
    decide +kernel
  obtain ⟨s, hs, hd⟩ := Option.map_eq_some_iff.mp hrun
  exact ⟨s, hs, of_decide_eq_false hd⟩

end Anoubis.Daemon.Amsg

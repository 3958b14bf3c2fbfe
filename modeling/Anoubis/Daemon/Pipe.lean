import Anoubis.Daemon.Amsg
import Mathlib.Data.List.GetD

/-! The two ends of an internal pipe.

    Between the messages that `send_msg` accepted and those that `get_msg` returned lies one stream of
    bytes: the rest of the writer's message behind the bytes in the pipe, these behind the reader's buffer,
    and that behind the reader's message (`unread`). A call of the writer appends the message it accepts, a
    call of the reader moves bytes towards the front and takes the first message off as soon as it is whole. -/

namespace Anoubis.Daemon.Amsg

open Option

open Anoubis.Lib List

/-! ### The header and the padding -/

theorem readsHeader_msgSize : ReadsHeader hdrSize msgSize := by
  intro l l' h
  have hget : ∀ i < 4, (l ++ l').getD i 0 = l.getD i 0 := by
    intro i hi
    exact getD_append l l' 0 i (by unfold hdrSize at h; omega)
  rw [msgSize, hget 0 (by decide), hget 1 (by decide), hget 2 (by decide), hget 3 (by decide), msgSize]

@[simp] theorem length_fillFrom (n : ℕ) (m : Bytes) : (fillFrom n m).length = m.length := by
  simp [fillFrom]

theorem take_fillFrom (n : ℕ) (m : Bytes) : (fillFrom n m).take n = m.take n := by
  apply ext_getElem
  · simp
  · intro i h _
    have hi : i < n := by
      rw [length_take] at h
      omega
    simp [fillFrom, hi]

theorem fillFrom_fillFrom (n : ℕ) (m : Bytes) : fillFrom n (fillFrom n m) = fillFrom n m := by
  apply ext_getElem
  · simp
  · intro i h _
    by_cases hi : i < n <;> simp [fillFrom, hi]

theorem fillFrom_of_length_le {n : ℕ} {m : Bytes} (h : m.length ≤ n) : fillFrom n m = m := by
  apply ext_getElem
  · simp
  · intro i _ hi
    simp [fillFrom, show i < n by omega]

theorem msgSize_fillFrom {n : ℕ} {m : Bytes} (hn : hdrSize ≤ n) (hm : hdrSize ≤ m.length) :
    msgSize (fillFrom n m) = msgSize m := by
  have hl : hdrSize ≤ (m.take n).length := by
    rw [length_take]
    omega
  have h := readsHeader_msgSize (m.take n) (m.drop n) hl
  have h' := readsHeader_msgSize (m.take n) ((fillFrom n m).drop n) hl
  rw [take_append_drop] at h
  rw [← take_fillFrom, take_append_drop, take_fillFrom] at h'
  exact h'.trans h.symm

/-- What the code relies on in `anoubisd_msg_size`: it counts the header, and it looks at the padding for
    NUL bytes only, where it finds none before and none after it was filled. -/
structure Sizing (sz : Bytes → ℤ) : Prop where
  header : ∀ m, 0 ≤ sz m → hdrSize ≤ sz m
  padding : ∀ m, 0 ≤ sz m → sz m ≤ m.length → sz (fillFrom (sz m).toNat m) = sz m

variable {sz : Bytes → ℤ}

/-- The bytes of a message as they are sent: those behind its own size are padding. -/
def wire (sz : Bytes → ℤ) (m : Msg) : Bytes := fillFrom (sz m.bytes).toNat m.bytes

/-- A message that is let through: by the limit, and by `amsg_verify`. -/
structure Fits (sz : Bytes → ℤ) (m : Msg) : Prop where
  limit : m.bytes.length ≤ msgSizeLimit
  counted : 0 ≤ sz m.bytes
  inside : sz m.bytes ≤ m.bytes.length

@[simp] theorem length_wire (m : Msg) : (wire sz m).length = m.bytes.length := length_fillFrom _ _

theorem isBlock_wire (hsz : Sizing sz) {m : Msg} (hm : Fits sz m) : IsBlock hdrSize msgSize (wire sz m) := by
  have hn : hdrSize ≤ (sz m.bytes).toNat := by
    have := hsz.header _ hm.counted
    omega
  refine ⟨(length_wire m).symm ▸ m.header, ?_⟩
  rw [length_wire, wire, msgSize_fillFrom hn m.header, m.size_eq]

theorem isBlock_of_fits (hsz : Sizing sz) {ms : List Msg} (hms : ∀ m ∈ ms, Fits sz m) :
    ∀ b ∈ ms.map (wire sz), IsBlock hdrSize msgSize b := by
  intro b hb
  obtain ⟨m, hm, rfl⟩ := mem_map.mp hb
  exact isBlock_wire hsz (hms m hm)

/-- The writer sends the message with its padding filled. -/
theorem amsgVerify_msg {m : Msg} {w : Bytes} (h : amsgVerify sz m.bytes = some w) :
    w = wire sz m ∧ 0 ≤ sz m.bytes ∧ sz m.bytes ≤ m.bytes.length := by
  rw [amsgVerify, m.size_eq] at h
  split at h
  · cases h
  · split at h
    · cases h
    · rename_i hr
      exact ⟨(some.inj h).symm, by omega, by omega⟩

/-- The reader finds it so and leaves it alone. -/
theorem amsgVerify_wire (hsz : Sizing sz) {m : Msg} (hm : Fits sz m) :
    amsgVerify sz (wire sz m) = some (wire sz m) := by
  have hblock := isBlock_wire hsz hm
  have hpad : sz (wire sz m) = sz m.bytes := hsz.padding _ hm.counted hm.inside
  have hlen : (wire sz m).length = m.bytes.length := length_wire m
  have hhdr := hblock.header
  have hin := hm.inside
  have hcount := hm.counted
  rw [amsgVerify, hblock.size_eq, hpad, if_neg (by omega), if_neg (by omega), wire, fillFrom_fillFrom]

/-! ### The writer -/

/-- The bytes of the writer's message that are not in the pipe yet. -/
def unsent (b : MsgBuf) : Bytes :=
  match b.wmsg with
  | none => []
  | some m => m.drop b.woff

/-- The writer's message has its own size, and no more of it was written. -/
def WriterOk (p : Pipe) : Prop := ∀ m, p.tx.wmsg = some m → msgSize m = m.length ∧ p.tx.woff ≤ m.length

/-- What calls of the writer do: the stream grows by `out`, the reader's end stays. -/
structure Appends (p : Pipe) (out : Bytes) (p' : Pipe) : Prop where
  stream : p'.data ++ unsent p'.tx = p.data ++ unsent p.tx ++ out
  rx : p'.rx = p.rx
  closed : p'.closed = p.closed
  ok : WriterOk p'

variable {p p' : Pipe} {io : Io} {ret : ℤ} {new : List Msg}

theorem Appends.refl (h : WriterOk p) : Appends p [] p :=
  ⟨(append_nil _).symm, rfl, rfl, h⟩

theorem Appends.trans {p'' : Pipe} {out out' : Bytes} (h : Appends p out p') (h' : Appends p' out' p'') :
    Appends p (out ++ out') p'' :=
  ⟨by rw [h'.stream, h.stream, append_assoc], h'.rx.trans h.rx, h'.closed.trans h.closed, h'.ok⟩

theorem take_append_drop_length (n : ℕ) (l : Bytes) : l.take n ++ l.drop (l.take n).length = l := by
  conv_lhs => rw [take_eq_take_min, length_take, min_eq_left (min_le_right n l.length)]
  exact take_append_drop _ _

theorem flushBuf_appends (h : WriterOk p) (io : Io) : Appends p [] (flushBuf p io) := by
  rw [flushBuf]
  cases hm : p.tx.wmsg with
  | none => exact Appends.refl h
  | some m =>
    obtain ⟨hsize, hoff⟩ := h m hm
    simp only
    split
    · rename_i hfull
      have hdrop : m.drop p.tx.woff = [] := drop_eq_nil_of_le (by omega)
      exact ⟨by simp [unsent, hm, hdrop], rfl, rfl, fun _ hw => nomatch hw⟩
    · cases io with
      | again => exact Appends.refl h
      | upto n =>
        simp only [write]
        split
        · -- everything was written
          rename_i hfull
          have htake : (m.drop p.tx.woff).take n = m.drop p.tx.woff := by
            apply take_of_length_le
            rw [length_take, hsize] at hfull
            rw [length_drop] at hfull ⊢
            omega
          exact ⟨by simp [unsent, hm, htake], rfl, rfl, fun _ hw => nomatch hw⟩
        · refine ⟨?_, rfl, rfl, fun m' hw => ?_⟩
          · simp only [unsent, hm, append_nil]
            rw [append_assoc, ← drop_drop, take_append_drop_length]
          · obtain rfl : m = m' := some.inj (hm.symm.trans hw)
            refine ⟨hsize, ?_⟩
            simp only [length_take, length_drop]
            omega

/-- `send_msg` accepts the message and appends it, or leaves it alone. It refuses for good only what is
    above the limit. -/
theorem sendMsg_spec (hsz : Sizing sz) {msg : Option Msg} {io' : Io} (h : WriterOk p)
    (hs : sendMsg sz p (msg.map Msg.bytes) io io' = some (ret, p')) :
    (0 < ret ∧ Appends p (msg.toList.map (wire sz)).flatten p' ∧ ∀ m ∈ msg, Fits sz m) ∨
    (ret ≤ 0 ∧ Appends p [] p' ∧ (ret < 0 → ∃ m ∈ msg, msgSizeLimit < m.bytes.length)) := by
  simp only [sendMsg] at hs
  -- both branches leave the stream as it is
  have hflush : Appends p [] (if p.tx.wmsg.isSome then flushBuf p io else p) := by
    split
    · exact flushBuf_appends h io
    · exact Appends.refl h
  revert hs hflush
  generalize (if p.tx.wmsg.isSome then flushBuf p io else p) = q
  intro hs hflush
  split at hs
  · cases hs
    exact .inr ⟨le_refl _, hflush, fun hlt => absurd hlt (lt_irrefl _)⟩
  · rename_i hidle
    have hnone : q.tx.wmsg = none := by simpa using hidle
    cases msg with
    | none =>
      cases hs
      exact .inl ⟨one_pos, by simpa using hflush, fun _ hm => nomatch hm⟩
    | some m =>
      simp only [map_some, m.size_eq] at hs
      split at hs
      · rename_i hbig
        cases hs
        exact .inr ⟨by decide, hflush, fun _ => ⟨m, rfl, by exact_mod_cast hbig⟩⟩
      · rename_i hlimit
        obtain ⟨w, hw, he⟩ := map_eq_some_iff.mp hs
        cases he
        obtain ⟨rfl, hcount, hin⟩ := amsgVerify_msg hw
        have hfit : Fits sz m := ⟨by exact_mod_cast not_lt.mp hlimit, hcount, hin⟩
        have hok : WriterOk { q with tx := { q.tx with wmsg := some (wire sz m), woff := 0 } } := by
          intro m' hm'
          cases hm'
          exact ⟨(isBlock_wire hsz hfit).size_eq, Nat.zero_le _⟩
        have hnew : Appends q (wire sz m) { q with tx := { q.tx with wmsg := some (wire sz m), woff := 0 } } :=
          ⟨by simp [unsent, hnone], rfl, rfl, hok⟩
        refine .inl ⟨one_pos, ?_, fun m' hm' => some.inj hm' ▸ hfit⟩
        simpa using hflush.trans (hnew.trans (flushBuf_appends hok io'))

/-- The loop hands the messages of the queue to `send_msg` in order; with an event it takes none off that
    was not accepted, other than one above the limit. -/
theorem writeLoop_spec (hsz : Sizing sz) {ev : Bool} {rounds : List (Io × Io)} {queue : List Msg} {w : Written}
    (h : WriterOk p) (hw : writeLoop sz ev rounds ret queue p = some w) :
    Appends p (w.sent.map (wire sz)).flatten w.pipe ∧ (∀ m ∈ w.sent, Fits sz m) ∧
      (ev = true → (∀ m ∈ queue, m.bytes.length ≤ msgSizeLimit) → w.sent ++ w.queue = queue) := by
  induction rounds generalizing ret queue p w with
  | nil =>
    rw [writeLoop] at hw
    split at hw
    · rw [← some.inj hw]
      exact ⟨Appends.refl h, fun _ hm => absurd hm not_mem_nil, fun _ _ => rfl⟩
    · cases hw
  | cons r rounds ih =>
    obtain ⟨io, io'⟩ := r
    rw [writeLoop] at hw
    split at hw
    · rw [← some.inj hw]
      exact ⟨Appends.refl h, fun _ hm => absurd hm not_mem_nil, fun _ _ => rfl⟩
    split at hw
    · cases hw
    rename_i ret' p' hsend
    have hspec := sendMsg_spec hsz h hsend
    split at hw
    · -- the message stays on the queue
      rename_i hzero
      rw [← some.inj hw]
      rcases hspec with ⟨hpos, -, -⟩ | ⟨-, happ, -⟩
      · omega
      · exact ⟨happ, fun _ hm => absurd hm not_mem_nil, fun _ _ => rfl⟩
    split at hw
    · -- a permanent error
      rename_i hneg
      rcases hspec with ⟨hpos, -, -⟩ | ⟨-, happ, hbig⟩
      · omega
      split at hw
      · rw [← some.inj hw]
        refine ⟨happ, fun _ hm => absurd hm not_mem_nil, fun _ hle => ?_⟩
        obtain ⟨m, hm, hlt⟩ := hbig hneg
        exact absurd (hle m (mem_of_mem_head? hm)) (by omega)
      · cases hw
    rename_i hzero hneg
    obtain ⟨w', hw', he⟩ := bind_eq_some_iff.mp hw
    cases he
    rcases hspec with ⟨hpos, happ, hfit⟩ | ⟨hle, happ, -⟩
    · -- accepted
      obtain ⟨happ', hfit', hq⟩ := ih happ.ok hw'
      simp only [hpos, if_true]
      refine ⟨?_, fun m hm => ?_, fun hev hle => ?_⟩
      · simpa using happ.trans happ'
      · rcases mem_append.mp hm with hm | hm
        · exact hfit m (mem_toList.mp hm)
        · exact hfit' m hm
      · rw [append_assoc, hq hev (fun m hm => hle m (mem_of_mem_tail hm))]
        cases queue <;> rfl
    · -- dropped, for want of an event
      obtain ⟨happ', hfit', -⟩ := ih happ.ok hw'
      have hret : ¬ ret' > 0 := by omega
      simp only [hret, if_false, nil_append]
      exact ⟨by simpa using happ.trans happ', hfit', fun hev => absurd ⟨by omega, hev⟩ hzero⟩

theorem sendMsg_returns (p : Pipe) {msg : Option Msg} (io io' : Io) (hv : ∀ m ∈ msg, (amsgVerify sz m.bytes).isSome) :
    (sendMsg sz p (msg.map Msg.bytes) io io').isSome := by
  simp only [sendMsg]
  generalize (if p.tx.wmsg.isSome then flushBuf p io else p) = q
  split
  · rfl
  · cases msg with
    | none => rfl
    | some m =>
      simp only [map_some]
      split
      · rfl
      · simpa using hv m rfl

/-- Nothing is pending behind a successful flush. -/
theorem sendMsg_flush {io' : Io} (hs : sendMsg sz p none io io' = some (ret, p')) (hret : ret ≠ 0) :
    p'.tx.wmsg = none := by
  simp only [sendMsg] at hs
  revert hs
  generalize (if p.tx.wmsg.isSome then flushBuf p io else p) = q
  intro hs
  split at hs
  · exact absurd (Prod.mk.inj (some.inj hs)).1.symm hret
  · rename_i hidle
    cases hs
    simpa using hidle

/-- With an event the loop comes to its end: every round takes a message off the queue, or is the last. -/
theorem writeLoop_returns {rounds : List (Io × Io)} {queue : List Msg}
    (hv : ∀ m ∈ queue, (amsgVerify sz m.bytes).isSome) (hn : queue.length < rounds.length) :
    (writeLoop sz true rounds ret queue p).isSome := by
  induction rounds generalizing ret queue p with
  | nil => exact absurd hn (Nat.not_lt_zero _)
  | cons r rounds ih =>
    obtain ⟨io, io'⟩ := r
    rw [writeLoop]
    split
    · rfl
    · rename_i hbusy
      obtain ⟨⟨ret', p'⟩, hsend⟩ := isSome_iff_exists.mp
        (@sendMsg_returns sz p _ io io' (fun m hm => hv m (mem_of_mem_head? hm)))
      simp only [hsend]
      split
      · rfl
      split
      · rfl
      suffices hrest : (writeLoop sz true rounds ret' queue.tail p').isSome by
        obtain ⟨w, hw⟩ := isSome_iff_exists.mp hrest
        simp [hw]
      cases queue with
      | nil =>
        rename_i hzero _
        have hidle : p'.tx.wmsg = none := sendMsg_flush hsend (fun h0 => hzero ⟨h0, trivial⟩)
        cases rounds <;> simp [writeLoop, msgPending, hidle]
      | cons m queue =>
        refine ih (fun m' hm' => hv m' (mem_cons_of_mem m hm')) ?_
        simp only [length_cons, tail_cons] at hn ⊢
        omega

/-! ### The reader -/

/-- All bytes between the two ends, in the order in which they are read. -/
def unread (p : Pipe) : Bytes := p.rx.rmsg.getD [] ++ p.rx.rbuf ++ (p.data ++ unsent p.tx)

/-- A started message is longer than what is there of it, and the buffer behind it is empty. The end of
    the file is seen only behind everything. -/
structure ReaderOk (p : Pipe) : Prop where
  rmsg : ∀ m, p.rx.rmsg = some m → p.rx.rbuf = [] ∧ hdrSize ≤ m.length ∧ m.length < msgSize m
  eof : p.rx.iseof = true → p.data = [] ∧ p.closed = true

theorem ReaderOk.not_eof (h : ReaderOk p) {got rest : Bytes} (hgot : got ≠ []) (hdata : p.data = got ++ rest) :
    ¬ p.rx.iseof = true := by
  intro heof
  rw [(h.eof heof).1] at hdata
  exact hgot (append_eq_nil_iff.mp hdata.symm).1

/-- Bytes in the pipe are read, and then taken from the buffer. -/
def weight (p : Pipe) : ℕ := 2 * p.data.length + p.rx.rbuf.length

/-- What a call of the reader does that returned `r`, with `new` the messages in front of it. -/
structure Reads (sz : Bytes → ℤ) (new : List Msg) (io : Io) (p : Pipe) (r : Option Bytes) (p' : Pipe) :
    Prop where
  ok : ReaderOk p'
  tx : p'.tx = p.tx
  closed : p'.closed = p.closed
  stream : (r = none ∧ unread p' = unread p) ∨
    ∃ m new', new = m :: new' ∧ r = some (wire sz m) ∧ (new'.map (wire sz)).flatten = unread p'
  weight_le : weight p' ≤ weight p
  progress : p.closed = true → unsent p.tx = [] → io ≠ .again →
    weight p' < weight p ∨ msgEof p'.rx = true
  eof : msgEof p.rx = true → msgEof p'.rx = true

theorem iseof_of_msgEof {b : MsgBuf} (h : msgEof b = true) : b.iseof = true := by
  cases hb : b.iseof with
  | true => rfl
  | false => simp [msgEof, hb] at h

/-- Nothing was read. -/
theorem Reads.idle (hr : ReaderOk p) (hwhy : io = .again ∨ p.closed = false) : Reads sz new io p none p := by
  refine ⟨hr, rfl, rfl, .inl ⟨rfl, rfl⟩, le_refl _, fun hcl _ hio => ?_, id⟩
  rcases hwhy with hagain | hopen
  · exact absurd hagain hio
  · rw [hcl] at hopen
    cases hopen

/-- The end of the file was read. -/
theorem Reads.ended (hr : ReaderOk p) (hdata : p.data = []) (hcl : p.closed = true)
    (hend : msgEof { p.rx with iseof := true } = true) :
    Reads sz new io p none { p with rx := { p.rx with iseof := true } } :=
  ⟨⟨hr.rmsg, fun _ => ⟨hdata, hcl⟩⟩, rfl, rfl, .inl ⟨rfl, rfl⟩, le_refl _, fun _ _ _ => .inr hend,
    fun _ => hend⟩

/-- Bytes were read before. -/
theorem Reads.after {p₁ : Pipe} {r : Option Bytes} (h : Reads sz new io p₁ r p') (htx : p₁.tx = p.tx)
    (hcl : p₁.closed = p.closed) (hs : unread p₁ = unread p) (hw : weight p₁ < weight p)
    (hne : ¬ p.rx.iseof = true) : Reads sz new io p r p' := by
  have hlt : weight p' < weight p := lt_of_le_of_lt h.weight_le hw
  refine ⟨h.ok, h.tx.trans htx, h.closed.trans hcl, ?_, hlt.le, fun _ _ _ => .inl hlt,
    fun heof => absurd (iseof_of_msgEof heof) hne⟩
  rcases h.stream with ⟨hr, hu⟩ | hm
  · exact .inl ⟨hr, hu.trans hs⟩
  · exact .inr hm

theorem read_none {count : ℕ} (h : read p count io = none) : io = .again ∨ p.closed = false := by
  cases io with
  | again => exact .inl rfl
  | upto n =>
    rw [read] at h
    split at h
    · split at h
      · cases h
      · exact .inr (by simpa using ‹¬ p.closed = true›)
    · cases h

theorem read_some {count : ℕ} {got : Bytes} (hc : 0 < count) (h : read p count io = some got) :
    (got = [] ∧ p.data = [] ∧ p.closed = true) ∨
      (got ≠ [] ∧ got.length ≤ count ∧ p.data = got ++ p.data.drop got.length) := by
  cases io with
  | again => cases h
  | upto n =>
    rw [read] at h
    split at h
    · rename_i hd
      split at h
      · rename_i hcl
        exact .inl ⟨(some.inj h).symm, by simpa using hd, hcl⟩
      · cases h
    · rename_i hd
      rw [← some.inj h]
      refine .inr ⟨?_, ?_, (take_append_drop_length _ _).symm⟩
      · have hpos : 0 < p.data.length := length_pos_of_ne_nil (by simpa using hd)
        apply ne_nil_of_length_pos
        rw [length_take]
        omega
      · rw [length_take]
        omega

/-- How much `_fill_buf` asks for. -/
def room (b : MsgBuf) : ℤ :=
  match b.rmsg with
  | some m => msgSize m - m.length
  | none => 2 * msgBufSize - b.rbuf.length

/-- Where `_fill_buf` puts what it reads. -/
def store (b : MsgBuf) (got : Bytes) : MsgBuf :=
  match b.rmsg with
  | some m => { b with rmsg := some (m ++ got) }
  | none => { b with rbuf := b.rbuf ++ got }

theorem fillBuf_eq (hroom : 0 < room p.rx) (io : Io) :
    fillBuf p io = match read p (room p.rx).toNat io with
      | none => (true, p)
      | some [] => (false, { p with rx := { p.rx with iseof := true } })
      | some got => (true, { p with rx := store p.rx got, data := p.data.drop got.length }) := by
  rw [fillBuf]
  cases hm : p.rx.rmsg with
  | none =>
    simp only [room, hm] at hroom
    simp only [room, store, hm]
    refine (if_neg (by omega)).trans ?_
    rcases read p _ io with _ | _ | _ <;> rfl
  | some m =>
    simp only [room, hm] at hroom
    simp only [room, store, hm]
    refine (if_neg (by rw [complete, decide_eq_true_iff]; omega)).trans ?_
    rcases read p _ io with _ | _ | _ <;> rfl


/-- `_fill_buf` finds nothing, the end of the file, or some of the bytes in the pipe. -/
theorem fillBuf_cases (hroom : 0 < room p.rx) (io : Io) :
    (fillBuf p io = (true, p) ∧ (io = .again ∨ p.closed = false)) ∨
    (fillBuf p io = (false, { p with rx := { p.rx with iseof := true } }) ∧ p.data = [] ∧ p.closed = true) ∨
    ∃ got rest, fillBuf p io = (true, { p with rx := store p.rx got, data := rest }) ∧ got ≠ [] ∧
      got.length ≤ room p.rx ∧ p.data = got ++ rest := by
  have hcount : 0 < (room p.rx).toNat := by omega
  have hfill := fillBuf_eq hroom io
  cases hread : read p (room p.rx).toNat io with
  | none =>
    rw [hread] at hfill
    exact .inl ⟨hfill, read_none hread⟩
  | some got =>
    rw [hread] at hfill
    rcases read_some hcount hread with ⟨rfl, hdata, hcl⟩ | ⟨hgot, hle, hdata⟩
    · exact .inr (.inl ⟨hfill, hdata, hcl⟩)
    · refine .inr (.inr ⟨got, _, ?_, hgot, by omega, hdata⟩)
      rw [hfill]
      cases got with
      | nil => exact absurd rfl hgot
      | cons b bs => rfl

/-- The next message of the stream, and its length as its header tells it. -/
theorem exists_next (hsz : Sizing sz) (hfit : ∀ m ∈ new, Fits sz m) {a c : Bytes}
    (h : (new.map (wire sz)).flatten = a ++ c) (ha : hdrSize ≤ a.length) :
    ∃ m new', new = m :: new' ∧ Fits sz m ∧ msgSize a = m.bytes.length ∧
      wire sz m ++ (new'.map (wire sz)).flatten = a ++ c := by
  obtain ⟨b, bs, hbs, hsize, happ⟩ := exists_first_block readsHeader_msgSize (by decide) (isBlock_of_fits hsz hfit) h ha
  cases new with
  | nil => cases hbs
  | cons m new' =>
    obtain ⟨rfl, rfl⟩ := List.cons.inj hbs
    exact ⟨m, new', rfl, hfit m mem_cons_self, by rw [hsize, length_wire], happ⟩

/-- With a header in the buffer: the message is returned, or it starts here and goes on in the pipe. -/
theorem getNext_spec (hsz : Sizing sz) (hr : ReaderOk p) (hnone : p.rx.rmsg = none)
    (hlen : hdrSize ≤ p.rx.rbuf.length) (hfit : ∀ m ∈ new, Fits sz m)
    (hs : (new.map (wire sz)).flatten = unread p) (io : Io) :
    ∃ r p', getNext sz p = some (r, p') ∧ Reads sz new io p r p' ∧ weight p' < weight p := by
  have hs' : (new.map (wire sz)).flatten = p.rx.rbuf ++ (p.data ++ unsent p.tx) := by
    rw [hs, unread, hnone]
    rfl
  obtain ⟨m, new', rfl, hm, hsize, happ⟩ := exists_next hsz hfit hs' hlen
  have hhdr := m.header
  have hlimit := hm.limit
  have hpos : 0 < hdrSize := by decide
  have hnoeof : ¬ msgEof p.rx = true := by
    simp only [msgEof, hnone]
    split
    · exact Bool.false_ne_true
    · simpa using hlen
  simp only [getNext]
  rw [hsize, if_neg (by omega), Int.toNat_natCast]
  by_cases hfull : m.bytes.length ≤ p.rx.rbuf.length
  · -- the whole message is in the buffer
    obtain ⟨htake, hrest⟩ := take_first_block happ (by rwa [length_wire])
    rw [length_wire] at htake hrest
    rw [Nat.min_eq_right hfull, htake, (isBlock_wire hsz hm).size_eq, length_wire,
      if_neg (not_not.mpr rfl), returnMsg, amsgVerify_wire hsz hm]
    have hw : weight { p with rx := { p.rx with rbuf := p.rx.rbuf.drop m.bytes.length } } < weight p := by
      simp only [weight, length_drop]
      omega
    refine ⟨_, _, rfl, ⟨⟨fun m' hm' => ?_, hr.eof⟩, rfl, rfl, ?_, hw.le, fun _ _ _ => .inl hw,
      fun heof => absurd heof hnoeof⟩, hw⟩
    · exact absurd (hnone.symm.trans hm') nofun
    · refine .inr ⟨m, new', rfl, rfl, ?_⟩
      rw [hrest, unread, hnone]
      rfl
  · have hlt := not_le.mp hfull
    have hne : msgSize p.rx.rbuf ≠ (p.rx.rbuf.length : ℤ) := by omega
    rw [Nat.min_eq_left hlt.le, take_length, if_pos hne, drop_length]
    have hw : weight { p with rx := { p.rx with rbuf := [], rmsg := some p.rx.rbuf } } < weight p := by
      simp only [weight, length_nil]
      omega
    refine ⟨_, _, rfl, ⟨⟨fun m' hm' => ?_, hr.eof⟩, rfl, rfl, ?_, hw.le, fun _ _ _ => .inl hw,
      fun heof => absurd heof hnoeof⟩, hw⟩
    · cases hm'
      exact ⟨rfl, hlen, by omega⟩
    · exact .inl ⟨rfl, by simp [unread, hnone]⟩

/-- Where a message has started: the rest of it is read into it, up to its last byte. -/
theorem getRest_spec (hsz : Sizing sz) (hr : ReaderOk p) {m₀ : Bytes} (hm₀ : p.rx.rmsg = some m₀)
    (hfit : ∀ m ∈ new, Fits sz m) (hs : (new.map (wire sz)).flatten = unread p) (io : Io) :
    ∃ r p', getRest sz p m₀ io = some (r, p') ∧ Reads sz new io p r p' := by
  obtain ⟨hbuf, hhdr, hlt⟩ := hr.rmsg m₀ hm₀
  have hs' : (new.map (wire sz)).flatten = m₀ ++ (p.data ++ unsent p.tx) := by
    rw [hs, unread, hm₀, hbuf]
    simp
  obtain ⟨m, new', rfl, hm, hsize, happ⟩ := exists_next hsz hfit hs' hhdr
  have hne : ¬ complete m₀ = true := by
    rw [complete, decide_eq_true_iff]
    omega
  have hroom : room p.rx = msgSize m₀ - m₀.length := by rw [room, hm₀]
  rw [getRest, if_neg hne]
  rcases fillBuf_cases (p := p) (by omega) io with ⟨hfill, hwhy⟩ | ⟨hfill, hdata, hcl⟩ |
    ⟨got, rest, hfill, hgot, hle, hdata⟩
  · -- nothing was read
    simp only [hfill, takeRest, hm₀, if_neg hne]
    exact ⟨_, _, rfl, Reads.idle hr hwhy⟩
  · -- the end of the file: the writer closed inside of this message
    simp only [hfill]
    exact ⟨_, _, rfl, Reads.ended hr hdata hcl (by simp [msgEof, hm₀, hne])⟩
  · have hpos : 0 < got.length := length_pos_of_ne_nil hgot
    have hnoeof : ¬ p.rx.iseof = true := hr.not_eof hgot hdata
    have hw : 2 * rest.length + p.rx.rbuf.length < weight p := by
      rw [weight, hdata, length_append]
      omega
    have hsize' : msgSize (m₀ ++ got) = m.bytes.length := (readsHeader_msgSize m₀ got hhdr).trans hsize
    simp only [hfill, takeRest, store, hm₀]
    split
    · -- this was the rest
      rename_i hdone
      rw [complete, decide_eq_true_iff, hsize'] at hdone
      have happ' : wire sz m ++ (new'.map (wire sz)).flatten = (m₀ ++ got) ++ (rest ++ unsent p.tx) := by
        rw [happ, hdata]
        simp
      obtain ⟨hmsg, hrest⟩ := append_inj happ' (by rw [length_wire]; omega)
      rw [← hmsg, returnMsg, amsgVerify_wire hsz hm]
      refine ⟨_, _, rfl, ⟨⟨nofun, fun heof => absurd heof hnoeof⟩, rfl, rfl, ?_, hw.le, fun _ _ _ => .inl hw,
        fun heof => absurd (iseof_of_msgEof heof) hnoeof⟩⟩
      exact .inr ⟨m, new', rfl, rfl, by rw [hrest, unread, hbuf]; rfl⟩
    · rename_i hmore
      rw [complete, decide_eq_true_iff, hsize'] at hmore
      refine ⟨_, _, rfl, ⟨⟨fun m' hm' => ?_, fun heof => absurd heof hnoeof⟩, rfl, rfl, ?_, hw.le,
        fun _ _ _ => .inl hw, fun heof => absurd (iseof_of_msgEof heof) hnoeof⟩⟩
      · cases hm'
        rw [hsize', length_append]
        rw [length_append] at hmore
        exact ⟨hbuf, by omega, by omega⟩
      · refine .inl ⟨rfl, ?_⟩
        rw [unread, unread, hm₀, hbuf, hdata]
        simp

/-- `get_msg`, whatever the kernel gives: bytes move on, or the first message is taken. -/
theorem getMsg_spec (hsz : Sizing sz) (hr : ReaderOk p) (hfit : ∀ m ∈ new, Fits sz m)
    (hs : (new.map (wire sz)).flatten = unread p) (io : Io) :
    ∃ r p', getMsg sz p io = some (r, p') ∧ Reads sz new io p r p' := by
  rw [getMsg]
  cases hm : p.rx.rmsg with
  | some m₀ => exact getRest_spec hsz hr hm hfit hs io
  | none =>
    simp only
    by_cases hshort : p.rx.rbuf.length < hdrSize
    · rw [if_pos hshort]
      have hroom : 0 < room p.rx := by
        simp only [room, hm, msgBufSize]
        unfold hdrSize at hshort
        omega
      rcases fillBuf_cases hroom io with ⟨hfill, hwhy⟩ | ⟨hfill, hdata, hcl⟩ |
        ⟨got, rest, hfill, hgot, hle, hdata⟩
      · simp only [hfill, if_pos hshort]
        exact ⟨_, _, rfl, Reads.idle hr hwhy⟩
      · simp only [hfill]
        exact ⟨_, _, rfl, Reads.ended hr hdata hcl (by simp [msgEof, hm, hshort])⟩
      · have hpos : 0 < got.length := length_pos_of_ne_nil hgot
        have hnoeof : ¬ p.rx.iseof = true := hr.not_eof hgot hdata
        have hr₁ : ReaderOk { p with rx := { p.rx with rbuf := p.rx.rbuf ++ got }, data := rest } := by
          exact ⟨fun m hm' => absurd (hm.symm.trans hm') nofun, fun heof => absurd heof hnoeof⟩
        have hs₁ : unread { p with rx := { p.rx with rbuf := p.rx.rbuf ++ got }, data := rest } = unread p := by
          simp [unread, hdata]
        have hw₁ : weight { p with rx := { p.rx with rbuf := p.rx.rbuf ++ got }, data := rest } < weight p := by
          simp only [weight, hdata, length_append]
          omega
        have hstore : store p.rx got = { p.rx with rbuf := p.rx.rbuf ++ got } := by simp [store, hm]
        rw [hstore] at hfill
        simp only [hfill]
        split
        · exact ⟨_, _, rfl, hr₁, rfl, rfl, .inl ⟨rfl, hs₁⟩, hw₁.le, fun _ _ _ => .inl hw₁,
            fun heof => absurd (iseof_of_msgEof heof) hnoeof⟩
        · rename_i hlen
          obtain ⟨r, p', hp', hreads, -⟩ :=
            getNext_spec hsz hr₁ hm (not_lt.mp hlen) hfit (hs.trans hs₁.symm) io
          exact ⟨r, p', hp', hreads.after rfl rfl hs₁ hw₁ hnoeof⟩
    · rw [if_neg hshort]
      simp only [if_neg hshort]
      obtain ⟨r, p', hp', hreads, -⟩ := getNext_spec hsz hr hm (not_lt.mp hshort) hfit hs io
      exact ⟨r, p', hp', hreads⟩

end Anoubis.Daemon.Amsg

import Anoubis.Daemon.Scanner
import Anoubis.Daemon.SizesMsg

/-! Runs of the scanner children.

    What the reading of a reply keeps, what the exit of a child does, and then runs: an event answers the
    scans as it should exactly if the event loop does not call back and nobody with a long user ID scans
    twice.

        unread --readRound--> … --> msgbuf --scanReply--> reply      one per child, with its token -/

namespace Anoubis.Daemon.Scanner

open Anoubis.Lib List
open Anoubis.Daemon.Amsg (Bytes Msg msgSize fillFrom)
open Anoubis.Daemon.Sizes (Kernel anoubisdMsgSize host Measures Region Rest)

attribute [local irreducible] Anoubis.MsgVerify.int

variable {K : Kernel} {junk : ℕ → UInt8} {eof : Bool} {sp : ScanProc} {s : Master}

/-! ### The size of a reply -/

variable {m : Bytes} {n : ℕ}
variable {l : ℤ} {off pid : ℕ} {b : Bytes} {e : Event}

/-- A reply that is accepted is as long as its header and its payload. -/
theorem lenCheck_size {b : ℕ} (h : Region m b l) {size : ℕ} {len : ℕ → Option ℤ} {v : ℤ}
    (hlen : (size : ℤ) ≤ l → len b = some v) (hv : -2147483648 ≤ v ∧ v < 4294967296) :
    Measures (Sizes.lenCheckFunction size off len) (fun r => r = off + v) ⟨b, l, 0⟩ :=
  Sizes.lenCheckFunction_rule h hlen hv fun _ _ => rfl

theorem pgcommitReplySize_eq (h : Region m 8 l) :
    Measures (Sizes.pgcommitReplySize m) (fun r => r = (16 : ℕ) + (host m (8 + 8) 4 : ℤ)) ⟨8, l, 0⟩ := by
  have hin := h.inside
  have hlen : (16 : ℕ) ≤ l →
      ((Sizes.readHost m (8 + 8) 4).map fun n => (n : ℤ)) = some (host m (8 + 8) 4 : ℤ) := by
    intro hle
    rw [Sizes.readHost_eq (by omega)]
    rfl
  exact lenCheck_size h hlen (Sizes.nat_range (Sizes.host4_lt _))

theorem msgWalk_reply (hm : m.length < 2147483648) (ht : host m 4 4 = pgcommitReply) :
    Measures (Sizes.msgWalk K m) (fun r => r = 24 + host m 16 4) ⟨0, m.length, 0⟩ := by
  have hregion : Region m 0 m.length := ⟨by omega, by omega⟩
  refine Sizes.struct_rule hregion fun hsize hle hs => Sizes.peek_rule (Sizes.readHost_eq (by dsimp only; omega)) ?_
  have hrest : Rest m ⟨8, m.length - 8, 8⟩ := hregion.rest hle hs
  dsimp only [Nat.reduceAdd]
  have hidx : Sizes.msgTypes[pgcommitReply]? = some .pgcommitReply := rfl
  rw [ht, hidx]
  dsimp only
  have hcase := pgcommitReplySize_eq (m := m) ⟨hrest.inside, hrest.len⟩
  refine Sizes.variant_rule hcase hrest.size fun r h0 hr hs' => ?_
  dsimp only at hs' ⊢
  refine Sizes.returnSize_measures ⟨by dsimp only; omega, hs'⟩ ?_
  dsimp only [Nat.reduceAdd] at hr ⊢
  omega

/-- What `amsg_verify_nonfatal` accepts has a payload that fits, and it keeps the header. -/
theorem amsgVerifyNonfatal_reply (K : Kernel) (hm : m.length < 2147483648) (hsize : 8 ≤ msgSize m)
    (ht : host m 4 4 = pgcommitReply) :
    ∃ r, amsgVerifyNonfatal K m = some r ∧
      ∀ m', r = some m' → ∃ n : ℕ, (n : ℤ) ≤ msgSize m ∧ n = 24 + host m 16 4 ∧ m' = fillFrom n m := by
  obtain ⟨tmp, hr, hok⟩ := (msgWalk_reply (K := K) hm ht).result
  have hwalk : anoubisdMsgSize K m = some tmp := hr
  rw [amsgVerifyNonfatal, if_neg (by omega), hwalk]
  refine ⟨_, rfl, fun m' hm' => ?_⟩
  dsimp only at hm'
  split at hm'
  · cases hm'
  · rename_i htmp
    split at hm'
    · cases hm'
    · rcases hok with hneg | ⟨h0, -, heq⟩
      · exact absurd (.inl hneg.2) htmp
      · exact ⟨tmp.toNat, by omega, by omega, (Option.some.inj hm').symm⟩

/-! ### Reading -/

/-- What a reading changes: the buffer, the offset, and what is unread. -/
structure SameScan (a b : ScanProc) : Prop where
  sp : b.sp = a.sp
  token : b.token = a.token
  pipe : b.pipe = a.pipe

/-- The buffer is small, and once there is a header, its size field is that of a message. -/
structure Reading (sp : ScanProc) : Prop where
  small : sp.msgbuf.length ≤ replyLimit
  phase : (sp.msgoff = 0 ∧ ∃ m : Msg, sp.unread <+: m.bytes) ∨ (sp.msgoff < 8 ∧ sp.unread = []) ∨
    (8 ≤ sp.msgoff ∧ sp.msgoff ≤ sp.msgbuf.length ∧ 8 ≤ msgSize sp.msgbuf)

theorem msgSize_append {a : Bytes} (h : 4 ≤ a.length) : msgSize (a ++ b) = msgSize a := by
  have hget : ∀ i, i < 4 → (a ++ b).getD i 0 = a.getD i 0 := by
    intro i hi
    rw [getD_eq_getElem?_getD, getD_eq_getElem?_getD, getElem?_append_left (by omega)]
  simp only [msgSize, hget 0 (by omega), hget 1 (by omega), hget 2 (by omega), hget 3 (by omega)]

theorem msgSize_take (h : 4 ≤ n) : msgSize (m.take n) = msgSize m := by
  have hget : ∀ i, i < 4 → (m.take n).getD i 0 = m.getD i 0 := by
    intro i hi
    rw [getD_eq_getElem?_getD, getD_eq_getElem?_getD, getElem?_take_of_lt (by omega)]
  simp only [msgSize, hget 0 (by omega), hget 1 (by omega), hget 2 (by omega), hget 3 (by omega)]

theorem limitSize_spec (h : 4 ≤ m.length) (h8 : 8 ≤ msgSize m) :
    (limitSize m).length = m.length ∧ 8 ≤ msgSize (limitSize m) ∧ msgSize (limitSize m) ≤ replyLimit := by
  rw [limitSize]
  split
  · have hsize : msgSize ([0x40, 0x1f, 0, 0] ++ m.drop 4) = replyLimit := by
      rw [msgSize_append (by decide)]
      decide +kernel
    rw [hsize]
    exact ⟨by simp; omega, by decide, le_refl _⟩
  · exact ⟨rfl, h8, by omega⟩

theorem length_grow (junk : ℕ → UInt8) (len : ℕ) (m : Bytes) : (grow junk len m).length = max len m.length := by
  rw [grow]
  split
  · simp; omega
  · omega

theorem take_grow (junk : ℕ → UInt8) (len : ℕ) (h : n ≤ m.length) : (grow junk len m).take n = m.take n := by
  rw [grow]
  split
  · exact take_append_of_le_length h
  · rfl

/-- A round keeps the scan and what the buffer has to be, and at the end of the data it ends in `break`. -/
def RoundOk (eof : Bool) (sp : ScanProc) : ScanProc ⊕ (ScanProc × Bool) → Prop
  | .inl sp' => SameScan sp sp' ∧ Reading sp'
  | .inr r => SameScan sp r.1 ∧ Reading r.1 ∧ (eof = true → r.2 = true)

/-- Nothing has been read: the header comes in one piece, or the pipe is empty behind the round. -/
theorem readRound_start (hsmall : sp.msgbuf.length ≤ replyLimit) (hoff : sp.msgoff = 0) {m : Msg}
    (hm : sp.unread <+: m.bytes) : RoundOk eof sp (readRound junk eof sp) := by
  have hmin := eight_le_limit
  have hwanted : wanted sp = 8 := by rw [wanted, if_pos (by omega)]
  have hlimited : limited sp = sp := by rw [limited, if_pos (by omega)]
  have hgrow := length_grow junk 8 sp.msgbuf
  rw [readRound]
  dsimp only
  rw [hwanted, hlimited, if_neg (by omega), hoff, Nat.sub_zero]
  by_cases hdata : sp.unread.take 8 = []
  · rw [if_pos hdata]
    exact ⟨⟨rfl, rfl, rfl⟩, ⟨by dsimp only; omega, .inl ⟨rfl, m, hm⟩⟩, id⟩
  · rw [if_neg hdata]
    refine ⟨⟨rfl, rfl, rfl⟩, ?_, ?_⟩
    · simp only [take_zero, nil_append, zero_add, length_append, length_drop, hgrow, length_take]
      omega
    · right
      by_cases hfull : 8 ≤ sp.unread.length
      · right
        have hlen8 : (sp.unread.take 8).length = 8 := by rw [length_take]; omega
        refine ⟨by dsimp only; omega, ?_, ?_⟩
        · simp only [take_zero, nil_append, zero_add, length_append, hlen8]
          omega
        · obtain ⟨t, ht⟩ := hm
          have hout : msgSize sp.unread = m.bytes.length := by
            rw [← m.size_eq, ← ht, msgSize_append (by omega)]
          have hheader := m.header
          rw [take_zero, nil_append, msgSize_append (by omega), msgSize_take (by omega), hout]
          exact_mod_cast hheader
      · left
        have hlen8 : (sp.unread.take 8).length = sp.unread.length := by rw [length_take]; omega
        dsimp only
        rw [hlen8]
        exact ⟨by omega, drop_length⟩

/-- The header is not complete, and it will not be. -/
theorem readRound_broken (hsmall : sp.msgbuf.length ≤ replyLimit) (hoff : sp.msgoff < 8)
    (hun : sp.unread = []) : RoundOk eof sp (readRound junk eof sp) := by
  have hmin := eight_le_limit
  have hwanted : wanted sp = 8 := by rw [wanted, if_pos hoff]
  have hlimited : limited sp = sp := by rw [limited, if_pos hoff]
  have hgrow := length_grow junk 8 sp.msgbuf
  rw [readRound]
  dsimp only
  rw [hwanted, hlimited, if_neg (by omega), hun, take_nil, if_pos rfl]
  exact ⟨⟨rfl, rfl, rfl⟩, ⟨by dsimp only; omega, .inr (.inl ⟨hoff, rfl⟩)⟩, id⟩

/-- The header is in the buffer `b`, and the reading goes for `n` bytes. -/
theorem readRound_rest (hwanted : wanted sp = n) (hlimited : limited sp = { sp with msgbuf := b })
    (hmax : n ≤ replyLimit) (hsmall : b.length ≤ replyLimit) (hoff : 8 ≤ sp.msgoff) (hlen : sp.msgoff ≤ b.length)
    (hlo : 8 ≤ msgSize b) : RoundOk eof sp (readRound junk eof sp) := by
  have hgrow := length_grow junk n b
  rw [readRound]
  dsimp only
  rw [hwanted, hlimited]
  dsimp only
  by_cases hdone : n ≤ sp.msgoff
  · rw [if_pos hdone]
    exact ⟨⟨rfl, rfl, rfl⟩, ⟨hsmall, .inr (.inr ⟨hoff, hlen, hlo⟩)⟩, fun _ => rfl⟩
  · rw [if_neg hdone]
    have htake : ∀ k, k ≤ sp.msgoff → (grow junk n b).take k = b.take k :=
      fun k hk => take_grow junk _ (by omega)
    have hheader : ∀ x, 8 ≤ msgSize ((grow junk n b).take sp.msgoff ++ x) := by
      intro x
      rw [htake sp.msgoff (by omega), msgSize_append (by rw [length_take]; omega), msgSize_take (by omega)]
      exact hlo
    generalize grow junk n b = g at *
    by_cases hdata : sp.unread.take (n - sp.msgoff) = []
    · rw [if_pos hdata]
      refine ⟨⟨rfl, rfl, rfl⟩, ⟨by dsimp only; omega, .inr (.inr ⟨hoff, by dsimp only; omega, ?_⟩)⟩, id⟩
      have hg := hheader (g.drop sp.msgoff)
      rwa [take_append_drop] at hg
    · rw [if_neg hdata]
      have hdlen := length_take_le (n - sp.msgoff) sp.unread
      refine ⟨⟨rfl, rfl, rfl⟩, ?_, .inr (.inr ⟨by dsimp only; omega, ?_, ?_⟩)⟩
      · simp only [length_append, length_take, length_drop]
        omega
      · simp only [length_append, length_take, length_drop]
        omega
      · dsimp only
        rw [append_assoc]
        exact hheader _

/-- The header is there: the rest of the message, up to the limited size. -/
theorem readRound_header (hsmall : sp.msgbuf.length ≤ replyLimit) (hoff : 8 ≤ sp.msgoff)
    (hlen : sp.msgoff ≤ sp.msgbuf.length) (hsize : 8 ≤ msgSize sp.msgbuf) :
    RoundOk eof sp (readRound junk eof sp) := by
  obtain ⟨hlimlen, hlo, hhi⟩ := limitSize_spec (by omega) hsize
  obtain ⟨n, hn⟩ : ∃ n : ℕ, msgSize (limitSize sp.msgbuf) = n :=
    ⟨_, (Int.toNat_of_nonneg (by omega)).symm⟩
  have hmax : n ≤ replyLimit := by omega
  have hlimited : limited sp = { sp with msgbuf := limitSize sp.msgbuf } := by
    rw [limited, if_neg (by omega)]
  exact readRound_rest (wanted_header hoff hn hmax) hlimited hmax (by omega) hoff (by omega) hlo

variable (junk eof) in
theorem readRound_ok (h : Reading sp) : RoundOk eof sp (readRound junk eof sp) := by
  rcases h.phase with ⟨hoff, m, hm⟩ | ⟨hoff, hun⟩ | ⟨hoff, hlen, hsize⟩
  · exact readRound_start h.small hoff hm
  · exact readRound_broken h.small hoff hun
  · exact readRound_header h.small hoff hlen hsize

variable (junk eof) in
/-- The loop keeps what its rounds keep, and at the end of the data it is left by `break`. -/
theorem readMsg_ok (h : Reading sp) : SameScan sp (readMsg junk eof sp).1 ∧
    Reading (readMsg junk eof sp).1 ∧ (eof = true → (readMsg junk eof sp).2 = true) := by
  induction hn : sp.unread.length using Nat.strong_induction_on generalizing sp with
  | _ n ih =>
    have hok := readRound_ok junk eof h
    rw [readMsg]
    cases hround : readRound junk eof sp with
    | inl sp' =>
      rw [hround] at hok
      have hlt := readRound_unread hround
      obtain ⟨hsame, hreading, heof⟩ := ih sp'.unread.length (hn ▸ hlt) hok.2 rfl
      exact ⟨⟨hsame.sp.trans hok.1.sp, hsame.token.trans hok.1.token, hsame.pipe.trans hok.1.pipe⟩, hreading, heof⟩
    | inr r =>
      rw [hround] at hok
      exact hok

/-! ### The exit of a child -/

/-- A child whose pipe is open and of which nothing has been read. -/
structure Fresh (sp : ScanProc) : Prop where
  pipe : ∃ fd, sp.pipe = some fd ∧ fd ≠ sp.scanfile
  msgoff : sp.msgoff = 0
  msgbuf : sp.msgbuf = []
  out : ∃ m : Msg, sp.unread ++ sp.unwritten = m.bytes

theorem Fresh.reading (h : Fresh sp) : Reading sp := by
  obtain ⟨m, hm⟩ := h.out
  refine ⟨?_, .inl ⟨h.msgoff, m, sp.unwritten, hm⟩⟩
  rw [h.msgbuf]
  exact Nat.zero_le _

variable (junk) in
/-- The second round of the loop finds the pipe closed. -/
theorem drain_ok (h : Fresh sp) (n : ℕ) : ∃ sp', drain junk (n + 2) sp false = some (sp', true) ∧
    sp'.sp = sp.sp ∧ sp'.token = sp.token ∧ Reading sp' := by
  obtain ⟨fd, hfd, -⟩ := h.pipe
  obtain ⟨hsame, hreading, heof⟩ := readMsg_ok junk true h.reading
  refine ⟨{ (readMsg junk true sp).1 with pipe := none }, ?_, hsame.sp, hsame.token, ⟨hreading.small, hreading.phase⟩⟩
  simp [drain, hfd, dispatchScand2m, heof rfl]

theorem host_fillFrom {width : ℕ} (h : off + width ≤ n) : host (fillFrom n m) off width = host m off width := by
  have htake : (fillFrom n m).take (off + width) = m.take (off + width) := by
    apply ext_getElem?
    intro i
    by_cases hi : i < off + width
    · rw [getElem?_take_of_lt hi, getElem?_take_of_lt hi, fillFrom, getElem?_mapIdx]
      cases m[i]? with
      | none => rfl
      | some b => simp [show i < n by omega]
    · rw [getElem?_take_eq_none (not_lt.mp hi), getElem?_take_eq_none (not_lt.mp hi)]
  rw [host, host, take_drop, take_drop, htake]

/-- Behind the loop there is a reply, whatever the child has written. -/
theorem reply_ok (K : Kernel) (env : Commit) (token : ℕ) (h : Reading sp) :
    ∃ r reply, scanReply K env sp = some r ∧ makeReply token r = some reply ∧ reply.token = token := by
  have herror : ∀ err, ∃ reply, makeReply token (.error err) = some reply ∧ reply.token = token :=
    fun err => ⟨_, rfl, rfl⟩
  rw [scanReply]
  by_cases hoff : sp.msgoff < 8 ∨ sp.msgbuf.length < 8
  · rw [if_pos hoff]
    obtain ⟨reply, hreply⟩ := herror efault
    exact ⟨_, reply, rfl, hreply⟩
  rw [if_neg hoff]
  by_cases htype : host sp.msgbuf 4 4 ≠ pgcommitReply
  · rw [if_pos htype]
    obtain ⟨reply, hreply⟩ := herror efault
    exact ⟨_, reply, rfl, hreply⟩
  rw [if_neg htype, bmod_limit h.small]
  by_cases hlen : (sp.msgbuf.length : ℤ) ≠ msgSize sp.msgbuf
  · rw [if_pos hlen]
    obtain ⟨reply, hreply⟩ := herror efault
    exact ⟨_, reply, rfl, hreply⟩
  rw [if_neg hlen]
  have hsmall := h.small
  have hlim : replyLimit < 100000 := by decide
  have ht : host sp.msgbuf 4 4 = pgcommitReply := Classical.not_not.mp htype
  have hbytes : sp.msgbuf.length < 2147483648 := by omega
  have heq : (sp.msgbuf.length : ℤ) = msgSize sp.msgbuf := Classical.not_not.mp hlen
  have hsize8 : 8 ≤ msgSize sp.msgbuf := by omega
  obtain ⟨r, hr, hpayload⟩ := amsgVerifyNonfatal_reply K hbytes hsize8 ht
  rw [hr]
  cases r with
  | none =>
    obtain ⟨reply, hreply⟩ := herror efault
    exact ⟨_, reply, rfl, hreply⟩
  | some m =>
    obtain ⟨n, hn, hsize, rfl⟩ := hpayload m rfl
    have hextra : host (fillFrom n sp.msgbuf) 16 4 ≤ replyLimit := by
      rw [host_fillFrom (by omega)]
      omega
    have hok : ∃ reply, makeReply token (.ok (fillFrom n sp.msgbuf)) = some reply ∧ reply.token = token :=
      ⟨_, makeReply_ok token hextra, rfl⟩
    rw [Option.map_some]
    dsimp only
    split
    · obtain ⟨reply, hreply⟩ := hok
      exact ⟨_, reply, rfl, hreply⟩
    · split
      · obtain ⟨reply, hreply⟩ := herror _
        exact ⟨_, reply, rfl, hreply⟩
      · obtain ⟨reply, hreply⟩ := herror _
        exact ⟨_, reply, rfl, hreply⟩
      · obtain ⟨reply, hreply⟩ := hok
        exact ⟨_, reply, rfl, hreply⟩

/-- The exit of a child answers its scan: one reply with its token, and nothing is left of it. -/
theorem scanprocExit_ok (K : Kernel) (junk : ℕ → UInt8) (n : ℕ) (status : Status) (env : Commit)
    (hfind : s.scanprocs.find? (isChild pid) = some sp) (h : Fresh sp) :
    ∃ reply, reply.token = sp.token ∧ scanprocExit K junk (n + 2) s pid status env =
      some (1, ⟨s.scanprocs.eraseP (isChild pid), eventDel sp.sp s.events, s.queue ++ [reply]⟩) := by
  rw [scanprocExit, hfind]
  dsimp only
  by_cases hstatus : status ≠ .exited 0
  · rw [if_pos hstatus]
    exact ⟨_, rfl, rfl⟩
  · rw [if_neg hstatus]
    obtain ⟨sp', hdrain, hsp, htoken, hreading⟩ := drain_ok junk h n
    obtain ⟨r, reply, hr, hreply, heq⟩ := reply_ok K env sp'.token hreading
    refine ⟨reply, heq.trans htoken, ?_⟩
    rw [hdrain, Option.bind_some]
    dsimp only
    rw [hr, Option.bind_some, hreply, if_pos rfl, hsp]
    rfl

/-! ### The books -/

/-- The scans whose children run, with the process IDs of the children, and the tokens of the replies. -/
structure Desk where
  pending : List (ℕ × ℕ)
  answered : List ℕ

/-- What an event does at the desk: a scan that was started is pending, and the exit of its child answers
    it. -/
def Desk.note (d : Desk) (ret : ℤ) : Event → Desk
  | .start token _ _ env _ =>
    match env.fork with
    | .ok pid => if ret = 0 then { d with pending := (pid, token) :: d.pending } else d
    | .error _ => d
  | .exit pid _ _ =>
    match d.pending.find? (fun x => x.1 ≠ 0 && x.1 = pid) with
    | none => d
    | some x => ⟨d.pending.eraseP (fun x => x.1 ≠ 0 && x.1 = pid), d.answered ++ [x.2]⟩
  | _ => d

def Master.desk (s : Master) : Desk := ⟨s.scanprocs.map (fun sp => (sp.childpid, sp.token)), s.queue.map (·.token)⟩

/-- What the system promises: a new structure has an address of its own, the descriptors of a new pipe are
    not open yet, errors have numbers, and the event loop calls back for registered events only. -/
def Proper (s : Master) : Event → Prop
  | .start _ fd _ env _ => (∀ sp ∈ s.scanprocs, sp.sp ≠ env.sp) ∧ (∀ p p', env.pipe = .ok (p, p') → p ≠ fd) ∧
      ∀ errno, env.pipe = .error errno → errno ≠ 0
  | .ready r => r ∈ s.events
  | _ => True

/-- Scans are answered once: the event comes to its end, and behind it the desk is as it should be, no two
    scans are of one user, and every registered event belongs to a scan with an open pipe. -/
structure AnswersOnce (K : Kernel) (junk : ℕ → UInt8) (n : ℕ) (s : Master) (e : Event) : Prop where
  ends : step K junk n s e ≠ none
  desk : ∀ ret s', step K junk n s e = some (ret, s') → s'.desk = s.desk.note ret e
  users : ∀ ret s', step K junk n s e = some (ret, s') → (s'.scanprocs.map (·.uid)).Nodup
  live : ∀ ret s', step K junk n s e = some (ret, s') →
    ∀ r ∈ s'.events, ∃ sp ∈ s'.scanprocs, sp.sp = r.sp ∧ sp.pipe ≠ none

/-- The system calls for a new child go well. -/
def Spawn.ok (env : Spawn) : Prop := (∃ p, env.pipe = .ok p) ∧ ∃ pid, env.fork = .ok pid

/-- When an event answers the scans as it should: the event loop does not call back, and a scan for a user
    who has one already is found to be busy, or cannot be started anyway. -/
def AnswerOk (s : Master) : Event → Prop
  | .start _ _ authUid env _ => (∃ sp ∈ s.scanprocs, sp.uid = authUid) → env.ok →
      ∃ sp ∈ s.scanprocs, sp.uid = authUid % 4294967296
  | .ready _ => False
  | _ => True

/-! ### Steps -/

/-- Nothing has been read from any child, and the event of a scan is that of the file it scans. -/
structure Inv (s : Master) : Prop where
  fresh : ∀ sp ∈ s.scanprocs, Fresh sp
  events : ∀ r ∈ s.events, ∃ sp ∈ s.scanprocs, sp.sp = r.sp ∧ sp.scanfile = r.fd
  addresses : (s.scanprocs.map (·.sp)).Nodup
  users : (s.scanprocs.map (·.uid)).Nodup

theorem Inv.live (h : Inv s) : ∀ r ∈ s.events, ∃ sp ∈ s.scanprocs, sp.sp = r.sp ∧ sp.pipe ≠ none := by
  intro r hr
  obtain ⟨sp, hsp, haddr, -⟩ := h.events r hr
  obtain ⟨fd, hfd, -⟩ := (h.fresh sp hsp).pipe
  exact ⟨sp, hsp, haddr, by simp [hfd]⟩

/-- The address of a structure finds it. -/
theorem find_address (h : (s.scanprocs.map (·.sp)).Nodup) (hsp : sp ∈ s.scanprocs) {a : ℕ} (ha : sp.sp = a) :
    s.scanprocs.find? (·.sp = a) = some sp := by
  revert h hsp
  induction s.scanprocs with
  | nil => simp
  | cons x xs ih =>
    intro h hsp
    rw [map_cons, nodup_cons] at h
    by_cases hx : x.sp = a
    · rcases mem_cons.mp hsp with rfl | hsp
      · simp [hx]
      · exact absurd (mem_map.mpr ⟨sp, hsp, ha.trans hx.symm⟩) h.1
    · rcases mem_cons.mp hsp with rfl | hsp
      · exact absurd ha hx
      · rw [find?_cons_of_neg (by simp [hx])]
        exact ih h.2 hsp

/-- A callback ends the master: the descriptor of the event is that of the file, not that of the pipe. -/
theorem step_ready (h : Inv s) {r : Registered} (hr : r ∈ s.events) (n : ℕ) : step K junk n s (.ready r) = none := by
  obtain ⟨sp, hsp, haddr, hfile⟩ := h.events r hr
  obtain ⟨fd, hfd, hne⟩ := (h.fresh sp hsp).pipe
  simp only [step]
  rw [find_address h.addresses hsp haddr]
  dsimp only
  rw [dispatchScand2m, hfd]
  dsimp only
  rw [if_pos fun heq => hne (heq.trans hfile.symm)]
  rfl

/-- How a start can go: nothing happens, or there is a new scan and its event. -/
theorem scanStart_cases (s : Master) (token fd authUid : ℕ) (env : Spawn) (out : Msg) :
    (∃ errno : ℕ, scanStart s token fd authUid env out = (-(errno : ℤ), s) ∧
      ((∃ sp ∈ s.scanprocs, sp.uid = authUid % 4294967296) ∧ errno = ebusy ∨ ¬ env.ok)) ∨
    ((¬ ∃ sp ∈ s.scanprocs, sp.uid = authUid % 4294967296) ∧ ∃ p p' pid, env.pipe = .ok (p, p') ∧
      env.fork = .ok pid ∧ scanStart s token fd authUid env out =
        (0, { s with
          scanprocs := ⟨env.sp, token, fd, some p, authUid, pid, [], 0, [], out.bytes⟩ :: s.scanprocs
          events := ⟨fd, env.sp⟩ :: s.events })) := by
  rw [scanStart]
  by_cases hbusy : s.scanprocs.any (fun sp => sp.uid = authUid % 4294967296) = true
  · rw [if_pos hbusy]
    exact .inl ⟨ebusy, rfl, .inl ⟨by simpa using hbusy, rfl⟩⟩
  · rw [if_neg hbusy]
    cases hpipe : env.pipe with
    | error errno => exact .inl ⟨errno, rfl, .inr fun hok => by obtain ⟨⟨p, hp⟩, -⟩ := hok; simp [hpipe] at hp⟩
    | ok p =>
      cases hfork : env.fork with
      | error errno =>
        exact .inl ⟨errno, rfl, .inr fun hok => by obtain ⟨-, pid, hpid⟩ := hok; simp [hfork] at hpid⟩
      | ok pid => exact .inr ⟨by simpa using hbusy, p.1, p.2, pid, rfl, rfl, rfl⟩

/-- A start answers as it should exactly if nobody gets a second scan. -/
theorem start_iff (h : Inv s) (n : ℕ) {token fd authUid : ℕ} {env : Spawn} {out : Msg}
    (hp : Proper s (.start token fd authUid env out)) :
    AnswersOnce K junk n s (.start token fd authUid env out) ↔ AnswerOk s (.start token fd authUid env out) := by
  have hstep : step K junk n s (.start token fd authUid env out) = some (scanStart s token fd authUid env out) :=
    rfl
  rcases scanStart_cases s token fd authUid env out with ⟨errno, hret, hwhy⟩ | ⟨hfree, p, p', pid, hpipe, hfork, hret⟩
  · -- the function returns an error and nothing changes
    have hpos : errno ≠ 0 ∨ ∀ pid, env.fork ≠ .ok pid := by
      rcases hwhy with ⟨-, rfl⟩ | hno
      · exact .inl (by decide)
      · cases hpipe : env.pipe with
        | ok p => exact .inr fun pid hfork => hno ⟨⟨p, hpipe⟩, pid, hfork⟩
        | error e =>
          have heq : errno = e ∨ (-(errno : ℤ) = -(ebusy : ℤ)) := by
            rw [scanStart, hpipe] at hret
            split at hret
            · exact .inr (congrArg Prod.fst hret).symm
            · exact .inl (by have := congrArg Prod.fst hret; dsimp only at this; omega)
          rcases heq with rfl | heq
          · exact .inl (hp.2.2 _ hpipe)
          · have hbusy : ebusy = 16 := rfl
            exact .inl (by omega)
    have hdesk : s.desk.note (-(errno : ℤ)) (.start token fd authUid env out) = s.desk := by
      rw [Desk.note]
      cases hfork : env.fork with
      | error e => rfl
      | ok pid =>
        rcases hpos with hpos | hpos
        · dsimp only
          rw [if_neg (by omega)]
        · exact absurd hfork (hpos pid)
    refine iff_of_true ⟨by simp [hstep], fun ret s' hs => ?_, fun ret s' hs => ?_, fun ret s' hs => ?_⟩ ?_
    · rw [hstep, hret] at hs
      cases hs
      exact hdesk.symm
    · rw [hstep, hret] at hs
      cases hs
      exact h.users
    · rw [hstep, hret] at hs
      cases hs
      exact h.live
    · intro _ hok
      rcases hwhy with ⟨hbusy, -⟩ | hno
      · exact hbusy
      · exact absurd hok hno
  · -- there is a new scan
    have hok : env.ok := ⟨⟨_, hpipe⟩, pid, hfork⟩
    constructor
    · rintro ⟨-, -, husers, -⟩ ⟨sp, hsp, huid⟩ -
      have hnodup := husers 0 _ (hstep.trans (congrArg some hret))
      rw [map_cons, nodup_cons] at hnodup
      exact absurd (mem_map.mpr ⟨sp, hsp, huid⟩) hnodup.1
    · intro hmeets
      refine ⟨by simp [hstep], fun ret s' hs => ?_, fun ret s' hs => ?_, fun ret s' hs => ?_⟩
      · rw [hstep, hret] at hs
        cases hs
        rw [Desk.note, hfork]
        rfl
      · rw [hstep, hret] at hs
        cases hs
        rw [map_cons, nodup_cons]
        refine ⟨fun hmem => ?_, h.users⟩
        obtain ⟨sp, hsp, huid⟩ := mem_map.mp hmem
        exact hfree (hmeets ⟨sp, hsp, huid⟩ hok)
      · rw [hstep, hret] at hs
        cases hs
        intro r hr
        rcases mem_cons.mp hr with rfl | hr
        · exact ⟨_, mem_cons_self, rfl, by simp⟩
        · obtain ⟨sp, hsp, hlive⟩ := h.live r hr
          exact ⟨sp, mem_cons_of_mem _ hsp, hlive⟩

/-- The desk looks for the same child as the exit handler. -/
theorem find_desk (s : Master) (pid : ℕ) : s.desk.pending.find? (fun x => x.1 ≠ 0 && x.1 = pid) =
      (s.scanprocs.find? (isChild pid)).map (fun sp => (sp.childpid, sp.token)) ∧
    s.desk.pending.eraseP (fun x => x.1 ≠ 0 && x.1 = pid) =
      (s.scanprocs.eraseP (isChild pid)).map (fun sp => (sp.childpid, sp.token)) := by
  rw [Master.desk]
  dsimp only
  rw [find?_map, eraseP_map]
  exact ⟨rfl, rfl⟩

/-- The scan that is removed is the one that was found. -/
theorem split_child (h : s.scanprocs.find? (isChild pid) = some sp) :
    ∃ l₁ l₂, s.scanprocs = l₁ ++ sp :: l₂ ∧ s.scanprocs.eraseP (isChild pid) = l₁ ++ l₂ := by
  obtain ⟨hsp, l₁, l₂, hsplit, hnot⟩ := find?_eq_some_iff_append.mp h
  refine ⟨l₁, l₂, hsplit, ?_⟩
  rw [hsplit, eraseP_append_right _ fun b hb => by simpa using hnot b hb, eraseP_cons_of_pos hsp]

/-- A scan at another address is not the one that is removed. -/
theorem mem_erased (h : s.scanprocs.find? (isChild pid) = some sp) {x : ScanProc} (hx : x ∈ s.scanprocs)
    (hne : x.sp ≠ sp.sp) : x ∈ s.scanprocs.eraseP (isChild pid) := by
  obtain ⟨l₁, l₂, hsplit, herased⟩ := split_child h
  rw [herased]
  rw [hsplit] at hx
  rcases mem_append.mp hx with hx | hx
  · exact mem_append_left _ hx
  · rcases mem_cons.mp hx with rfl | hx
    · exact absurd rfl hne
    · exact mem_append_right _ hx

theorem exit_answers (h : Inv s) (n pid : ℕ) (status : Status) (env : Commit) :
    AnswersOnce K junk (n + 2) s (.exit pid status env) := by
  obtain ⟨hfind, herase⟩ := find_desk s pid
  cases hsp : s.scanprocs.find? (isChild pid) with
  | none =>
    -- not a scanner child
    have hstep : step K junk (n + 2) s (.exit pid status env) = some (0, s) := by
      simp only [step, scanprocExit, hsp]
    refine ⟨by simp [hstep], fun ret s' hs => ?_, fun ret s' hs => ?_, fun ret s' hs => ?_⟩
    · rw [hstep] at hs
      cases hs
      rw [Desk.note, hfind, hsp]
      rfl
    · rw [hstep] at hs
      cases hs
      exact h.users
    · rw [hstep] at hs
      cases hs
      exact h.live
  | some sp =>
    have hmem : sp ∈ s.scanprocs := mem_of_find?_eq_some hsp
    obtain ⟨reply, htoken, hexit⟩ := scanprocExit_ok K junk n status env hsp (h.fresh sp hmem)
    have hstep : step K junk (n + 2) s (.exit pid status env) = _ := hexit
    refine ⟨by simp [hstep], fun ret s' hs => ?_, fun ret s' hs => ?_, fun ret s' hs => ?_⟩
    · rw [hstep] at hs
      cases hs
      rw [Desk.note, hfind, hsp, Option.map_some]
      dsimp only
      rw [herase, Master.desk, ← htoken]
      simp [Master.desk]
    · rw [hstep] at hs
      cases hs
      exact h.users.sublist (eraseP_sublist.map _)
    · rw [hstep] at hs
      cases hs
      intro r hr
      obtain ⟨hr, hne⟩ := mem_filter.mp hr
      obtain ⟨sp', hsp', haddr, hpipe⟩ := h.live r hr
      -- the event of another scan
      exact ⟨sp', mem_erased hsp hsp' (haddr ▸ by simpa using hne), haddr, hpipe⟩

/-- What a child writes does not change what identifies its scan. -/
theorem map_write {α : Type} {f : ScanProc → α} (hf : ∀ k sp, f (ScanProc.write k sp) = f sp) (pid k : ℕ)
    (l : List ScanProc) : (l.map fun sp => if isChild pid sp then sp.write k else sp).map f = l.map f := by
  rw [map_map]
  apply map_congr_left
  intro sp _
  dsimp only [Function.comp]
  split
  · exact hf k sp
  · rfl

/-- An event answers the scans as it should exactly if `AnswerOk` says so. -/
theorem answers_iff (h : Inv s) (n : ℕ) (hp : Proper s e) : AnswersOnce K junk (n + 2) s e ↔ AnswerOk s e := by
  cases e with
  | start token fd authUid env out => exact start_iff h (n + 2) hp
  | write pid k =>
    refine iff_of_true ⟨by simp [step], fun ret s' hs => ?_, fun ret s' hs => ?_, fun ret s' hs => ?_⟩ trivial
    · cases hs
      rw [Master.desk]
      dsimp only
      rw [map_write fun _ _ => rfl]
      rfl
    · cases hs
      dsimp only
      rw [map_write fun _ _ => rfl]
      exact h.users
    · cases hs
      intro r hr
      obtain ⟨sp, hsp, haddr, hpipe⟩ := h.live r hr
      refine ⟨_, mem_map.mpr ⟨sp, hsp, rfl⟩, ?_⟩
      split
      · exact ⟨haddr, hpipe⟩
      · exact ⟨haddr, hpipe⟩
  | ready r => exact iff_of_false (fun hans => hans.ends (step_ready h hp (n + 2))) id
  | exit pid status env => exact iff_of_true (exit_answers h n pid status env) trivial

/-- The invariant is kept by events that answer as they should. -/
theorem inv_next (h : Inv s) (n : ℕ) (hp : Proper s e) (hok : AnswerOk s e) {s' : Master}
    (hs : next K junk (n + 2) s e = some s') : Inv s' := by
  obtain ⟨⟨ret, s''⟩, hstep, rfl⟩ := Option.map_eq_some_iff.mp hs
  have hans : AnswersOnce K junk (n + 2) s e := (answers_iff h n hp).mpr hok
  have husers := hans.users ret s'' hstep
  cases e with
  | start token fd authUid env out =>
    have heq : scanStart s token fd authUid env out = (ret, s'') := Option.some.inj hstep
    rcases scanStart_cases s token fd authUid env out with ⟨errno, hret, -⟩ | ⟨-, p, p', pid, hpipe, -, hret⟩
    · rw [hret] at heq
      cases heq
      exact h
    · rw [hret] at heq
      cases heq
      refine ⟨fun sp hsp => ?_, fun r hr => ?_, ?_, husers⟩
      · rcases mem_cons.mp hsp with rfl | hsp
        · exact ⟨⟨p, rfl, hp.2.1 p p' hpipe⟩, rfl, rfl, out, rfl⟩
        · exact h.fresh sp hsp
      · rcases mem_cons.mp hr with rfl | hr
        · exact ⟨_, mem_cons_self, rfl, rfl⟩
        · obtain ⟨sp, hsp, hev⟩ := h.events r hr
          exact ⟨sp, mem_cons_of_mem _ hsp, hev⟩
      · dsimp only
        rw [map_cons, nodup_cons]
        refine ⟨fun hmem => ?_, h.addresses⟩
        obtain ⟨sp, hsp, haddr⟩ := mem_map.mp hmem
        exact hp.1 sp hsp haddr
  | write pid k =>
    cases hstep
    refine ⟨fun sp hsp => ?_, fun r hr => ?_, ?_, husers⟩
    · obtain ⟨x, hx, rfl⟩ := mem_map.mp hsp
      have hfresh := h.fresh x hx
      split
      · obtain ⟨m, hm⟩ := hfresh.out
        refine ⟨hfresh.pipe, hfresh.msgoff, hfresh.msgbuf, m, ?_⟩
        rw [ScanProc.write]
        dsimp only
        rw [append_assoc, take_append_drop, hm]
      · exact hfresh
    · obtain ⟨sp, hsp, haddr, hfile⟩ := h.events r hr
      refine ⟨_, mem_map.mpr ⟨sp, hsp, rfl⟩, ?_⟩
      split
      · exact ⟨haddr, hfile⟩
      · exact ⟨haddr, hfile⟩
    · dsimp only
      rw [map_write fun _ _ => rfl]
      exact h.addresses
  | ready r => exact hok.elim
  | exit pid status env =>
    cases hsp : s.scanprocs.find? (isChild pid) with
    | none =>
      have hsame : step K junk (n + 2) s (.exit pid status env) = some (0, s) := by
        simp only [step, scanprocExit, hsp]
      rw [hsame] at hstep
      cases hstep
      exact h
    | some sp =>
      obtain ⟨reply, -, hexit⟩ := scanprocExit_ok K junk n status env hsp (h.fresh sp (mem_of_find?_eq_some hsp))
      have hgone : step K junk (n + 2) s (.exit pid status env) = _ := hexit
      rw [hgone] at hstep
      cases hstep
      have hsub : (s.scanprocs.eraseP (isChild pid)).Sublist s.scanprocs := eraseP_sublist
      refine ⟨fun x hx => h.fresh x (hsub.subset hx), fun r hr => ?_, h.addresses.sublist (hsub.map _), husers⟩
      obtain ⟨hr, hne⟩ := mem_filter.mp hr
      obtain ⟨x, hx, haddr, hfile⟩ := h.events r hr
      exact ⟨x, mem_erased hsp hx (haddr ▸ by simpa using hne), haddr, hfile⟩

/-! ### Runs -/

/-- In a run of the master from its start, all events answer the scans as they should exactly if the event
    loop does not call back and no user with a long ID gets a second scan. The exit handler leaves its loop
    in the second round. -/
theorem scans_answered_once (K : Kernel) (junk : ℕ → UInt8) (n : ℕ) (es : List Event)
    (hproper : Along (next K junk (n + 2)) Proper ⟨[], [], []⟩ es) :
    Along (next K junk (n + 2)) (AnswersOnce K junk (n + 2)) ⟨[], [], []⟩ es ↔
      Along (next K junk (n + 2)) AnswerOk ⟨[], [], []⟩ es := by
  have hinit : Inv ⟨[], [], []⟩ := by
    refine ⟨?_, ?_, List.nodup_nil, List.nodup_nil⟩
    · intro sp hsp
      cases hsp
    · intro r hr
      cases hr
  suffices h : ∀ s : Master, Inv s → Along (next K junk (n + 2)) Proper s es →
      (Along (next K junk (n + 2)) (AnswersOnce K junk (n + 2)) s es ↔
        Along (next K junk (n + 2)) AnswerOk s es) from h _ hinit hproper
  clear hproper hinit
  induction es with
  | nil => exact fun _ _ _ => Iff.rfl
  | cons e es ih =>
    intro s hinv hp
    rw [Along, Along, answers_iff hinv n hp.1]
    refine and_congr_right fun hok => forall_congr' fun s' => imp_congr_right fun hs => ?_
    exact ih s' (inv_next hinv n hp.1 hok hs) (hp.2 s' hs)

/-- The reply of a child that found nothing. -/
def cleanReply : Msg where
  bytes := [24, 0, 0, 0, 27, 0, 0, 0] ++ List.replicate 16 0
  header := by decide
  size_eq := by decide +kernel

/-- The descriptor 5 is the file to scan; the pipe is 6 and 7, the child 42. -/
def sampleStart : Event := .start 99 5 1000 ⟨1, .ok (6, 7), .ok 42⟩ cleanReply

/-- The master behind the start. -/
def scanning : Master :=
  ⟨[⟨1, 99, 5, some 6, 1000, 42, [], 0, [], cleanReply.bytes⟩], [⟨5, 1⟩], []⟩

theorem next_sampleStart (K : Kernel) (junk : ℕ → UInt8) (n : ℕ) :
    next K junk n ⟨[], [], []⟩ sampleStart = some scanning := rfl

theorem proper_sampleStart : Proper ⟨[], [], []⟩ sampleStart := by
  refine ⟨fun sp hsp => (by cases hsp), fun p p' hpipe => ?_, fun errno hpipe => by cases hpipe⟩
  cases hpipe
  decide

/-- A scan whose child exits without a callback is answered. -/
theorem scans_answered_once_clean :
    Along (next Sizes.sampleKernel (fun _ => 0) 2) (AnswersOnce Sizes.sampleKernel (fun _ => 0) 2) ⟨[], [], []⟩
      [sampleStart, .exit 42 (.exited 0) ⟨none, none⟩] := by
  refine (scans_answered_once Sizes.sampleKernel (fun _ => 0) 0 _ ?_).mpr ?_
  · rw [along_cons (next_sampleStart _ _ 2)]
    exact ⟨proper_sampleStart, trivial, fun _ _ => trivial⟩
  · rw [along_cons (next_sampleStart _ _ 2)]
    refine ⟨?_, trivial, fun _ _ => trivial⟩
    rintro ⟨sp, hsp, -⟩
    cases hsp

/-- The file to scan is readable, and the event loop calls back: the master terminates. -/
theorem callback_terminates :
    Along (next Sizes.sampleKernel (fun _ => 0) 2) Proper ⟨[], [], []⟩ [sampleStart, .ready ⟨5, 1⟩] ∧
    step Sizes.sampleKernel (fun _ => 0) 2 scanning (.ready ⟨5, 1⟩) = none ∧
    ¬ Along (next Sizes.sampleKernel (fun _ => 0) 2) (AnswersOnce Sizes.sampleKernel (fun _ => 0) 2) ⟨[], [], []⟩
      [sampleStart, .ready ⟨5, 1⟩] := by
  have hnone : step Sizes.sampleKernel (fun _ => 0) 2 scanning (.ready ⟨5, 1⟩) = none := rfl
  refine ⟨?_, hnone, fun h => ?_⟩
  · rw [along_cons (next_sampleStart _ _ 2)]
    exact ⟨proper_sampleStart, List.mem_cons_self, fun _ _ => trivial⟩
  · rw [along_cons (next_sampleStart _ _ 2)] at h
    exact h.2.1.ends hnone

end Anoubis.Daemon.Scanner

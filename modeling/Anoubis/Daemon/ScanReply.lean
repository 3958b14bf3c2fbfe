import Anoubis.Daemon.Pipe
import Anoubis.Daemon.ScanVerdictRuns

/-! The reply to a scan, from the child to the user.

    The message of the child gets through the pipe as it is, however its bytes are cut into pieces; its size
    field tells the master when it is complete. The master accepts it, and the reply has its error and its
    payload:

        replyMsg --writeReply--> unread --readAll--> msgbuf --scanReply--> --makeReply--> Reply  -/

namespace Anoubis.Daemon.Scanner

open Anoubis.Lib List
open Anoubis.Daemon.Amsg (Bytes msgSize fillFrom)
open Anoubis.Daemon.Sizes (Kernel Cur anoubisdMsgSize host)

attribute [local irreducible] Anoubis.MsgVerify.int

/-! ### The fields of the message -/

/-- A field of a message that is put together from its fields. -/
theorem host_field {m p r : Bytes} {off width n : ℕ} (hm : m = p ++ (hostBytes width n ++ r))
    (hoff : off = p.length) (hn : n < 256 ^ width) : host m off width = n :=
  hoff ▸ host_hostBytes hm hn

theorem msgSize_host {m : Bytes} (h : 4 ≤ m.length) : msgSize m = (host m 0 4 : ℤ).bmod 4294967296 := by
  obtain ⟨a, b, c, d, rest, rfl⟩ : ∃ a b c d rest, m = a :: b :: c :: d :: rest := by
    rcases m with _ | ⟨a, _ | ⟨b, _ | ⟨c, _ | ⟨d, rest⟩⟩⟩⟩
    · simp at h
    · simp at h
    · simp at h
    · simp at h
    · exact ⟨a, b, c, d, rest, rfl⟩
  have hhost : (host (a :: b :: c :: d :: rest) 0 4 : ℤ) =
      a.toNat + 256 * b.toNat + 65536 * c.toNat + 16777216 * d.toNat := by
    have hfold : host (a :: b :: c :: d :: rest) 0 4 =
        a.toNat + 256 * (b.toNat + 256 * (c.toNat + 256 * (d.toNat + 256 * 0))) := rfl
    omega
  rw [hhost]
  rfl

variable {payload : Bytes} {error : ℕ} {calls : List Call} {x : Scan}

theorem msgSize_replyMsg (error : ℕ) (hfits : payload.length + 24 ≤ replyLimit) :
    msgSize (replyMsg error payload) = (payload.length + 24 : ℕ) := by
  have hlimit : replyLimit < 4294967296 := by decide
  have hm : replyMsg error payload = [] ++ (hostBytes 4 (payload.length + 24) ++ (hostBytes 4 pgcommitReply ++
      (hostBytes 8 0 ++ (hostBytes 4 payload.length ++ (hostBytes 4 error ++ payload))))) := by
    simp only [replyMsg, append_assoc, nil_append]
  rw [msgSize_host (by rw [length_replyMsg]; omega), host_field hm length_nil.symm (by omega), bmod_limit hfits]

theorem mtype_replyMsg (error : ℕ) (payload : Bytes) : host (replyMsg error payload) 4 4 = pgcommitReply := by
  have hm : replyMsg error payload = hostBytes 4 (payload.length + 24) ++ (hostBytes 4 pgcommitReply ++
      (hostBytes 8 0 ++ (hostBytes 4 payload.length ++ (hostBytes 4 error ++ payload)))) := by
    simp only [replyMsg, append_assoc]
  exact host_field hm (by rw [length_hostBytes]) (by decide)

theorem len_replyMsg (error : ℕ) (hfits : payload.length + 24 ≤ replyLimit) :
    host (replyMsg error payload) 16 4 = payload.length := by
  have hlimit : replyLimit < 4294967296 := by decide
  have hm : replyMsg error payload = (hostBytes 4 (payload.length + 24) ++ (hostBytes 4 pgcommitReply ++
      hostBytes 8 0)) ++ (hostBytes 4 payload.length ++ (hostBytes 4 error ++ payload)) := by
    simp only [replyMsg, append_assoc]
  exact host_field hm (by simp only [length_append, length_hostBytes]) (by omega)

theorem error_replyMsg (herror : error < 4294967296) (payload : Bytes) :
    host (replyMsg error payload) 20 4 = error := by
  have hm : replyMsg error payload = (hostBytes 4 (payload.length + 24) ++ (hostBytes 4 pgcommitReply ++
      (hostBytes 8 0 ++ hostBytes 4 payload.length))) ++ (hostBytes 4 error ++ payload) := by
    simp only [replyMsg, append_assoc]
  exact host_field hm (by simp only [length_append, length_hostBytes]) (by omega)

theorem payload_replyMsg (error : ℕ) (payload : Bytes) : (replyMsg error payload).drop 24 = payload :=
  drop_left' (by simp only [length_append, length_hostBytes])

/-! ### The pipe -/

/-- How many calls move bytes. -/
def moves (calls : List Call) : ℕ := calls.countP (fun call => decide (call ≠ .again))

theorem moves_again (calls : List Call) : moves (.again :: calls) = moves calls := rfl

theorem moves_upto (n : ℕ) (calls : List Call) : moves (.upto n :: calls) = moves calls + 1 :=
  countP_cons_of_pos rfl

/-- Without an interruption, the child writes its message from the offset on. -/
theorem writeReply_out (around : ℤ → UInt8) (msg : Bytes) (hcalls : ∀ call ∈ calls, call ≠ .again) {off : ℕ}
    {out : Bytes} (hoff : off ≤ msg.length) (h : writeReply (memory around msg) msg.length calls off = some out) :
    out = msg.drop off := by
  induction calls generalizing off out with
  | nil =>
    rw [writeReply] at h
    by_cases hend : (off : ℤ) < msg.length
    · rw [if_pos hend] at h
      cases h
    · rw [if_neg hend] at h
      rw [← Option.some.inj h, drop_eq_nil_of_le (by omega)]
  | cons call calls ih =>
    cases call with
    | again => exact absurd rfl (hcalls _ mem_cons_self)
    | upto n =>
      rw [writeReply] at h
      by_cases hend : (off : ℤ) < msg.length
      · rw [if_pos hend] at h
        dsimp only at h
        obtain ⟨later, hlater, hout⟩ := Option.map_eq_some_iff.mp h
        have hret : min (n + 1) ((msg.length : ℤ) - off).toNat = min (n + 1) (msg.length - off) := by omega
        have hnext : (off : ℤ) + (min (n + 1) (msg.length - off) : ℕ) = (off + min (n + 1) (msg.length - off) : ℕ) := by
          push_cast
          rfl
        rw [hret] at hlater hout
        rw [hnext] at hlater
        have hpiece : (List.range (min (n + 1) (msg.length - off))).map (fun i : ℕ => memory around msg (off + i)) =
            (msg.drop off).take (min (n + 1) (msg.length - off)) := by
          refine ext_getElem (by simp) fun i hi hi' => ?_
          rw [length_map, length_range] at hi
          rw [getElem_map, getElem_range, getElem_take, getElem_drop, memory, if_pos (by omega)]
          have hidx : ((off : ℤ) + i).toNat = off + i := by omega
          rw [hidx, getD_eq_getElem _ _ (by omega)]
        rw [← hout, hpiece, ih (fun call hc => hcalls call (mem_cons_of_mem _ hc)) (by omega) hlater,
          ← drop_drop, take_append_drop]
      · rw [if_neg hend] at h
        rw [← Option.some.inj h, drop_eq_nil_of_le (by omega)]

/-- Each call writes at least one byte. -/
theorem writeReply_total (mem : ℤ → UInt8) (size : ℕ) (hcalls : ∀ call ∈ calls, call ≠ .again) {off : ℕ}
    (h : size ≤ off + calls.length) : (writeReply mem size calls off).isSome := by
  induction calls generalizing off with
  | nil =>
    have hend : ¬ (off : ℤ) < size := by
      rw [length_nil] at h
      omega
    rw [writeReply, if_neg hend]
    rfl
  | cons call calls ih =>
    cases call with
    | again => exact absurd rfl (hcalls _ mem_cons_self)
    | upto n =>
      rw [writeReply]
      by_cases hend : (off : ℤ) < size
      · rw [if_pos hend]
        dsimp only
        rw [Option.isSome_map]
        have hnext : (off : ℤ) + (min (n + 1) ((size : ℤ) - off).toNat : ℕ) =
            (off + min (n + 1) ((size : ℤ) - off).toNat : ℕ) := by
          push_cast
          rfl
        rw [hnext]
        rw [length_cons] at h
        exact ih (fun call hc => hcalls call (mem_cons_of_mem _ hc)) (by omega)
      · rw [if_neg hend]
        rfl

/-- What the master has read so far of a message: the buffer is as long as the part that is being read. -/
structure Partly (msg : Bytes) (sp : ScanProc) : Prop where
  off : sp.msgoff ≤ sp.msgbuf.length
  bytes : sp.msgbuf.take sp.msgoff ++ sp.unread = msg
  header : sp.msgoff < 8 → sp.msgbuf.length ≤ 8
  body : 8 ≤ sp.msgoff → sp.msgbuf.length ≤ msg.length

/-- The whole message is in the buffer. -/
structure Wholly (msg : Bytes) (token : ℕ) (sp : ScanProc) : Prop where
  msgbuf : sp.msgbuf = msg
  msgoff : sp.msgoff = msg.length
  token_eq : sp.token = token

section Reading

variable {msg : Bytes} {junk : ℕ → UInt8} {sp : ScanProc}

theorem Partly.length (h : Partly msg sp) : sp.msgoff + sp.unread.length = msg.length := by
  rw [← h.bytes, length_append, length_take, Nat.min_eq_left h.off]

variable (hsize : msgSize msg = msg.length) (hmin : 8 ≤ msg.length) (hmax : msg.length ≤ replyLimit)
include hsize

/-- The size in the header is that of the message. -/
theorem Partly.msgSize_eq (h : Partly msg sp) (hoff : 8 ≤ sp.msgoff) : msgSize sp.msgbuf = msg.length := by
  have hlong : 4 ≤ (sp.msgbuf.take sp.msgoff).length := by
    rw [length_take, Nat.min_eq_left h.off]
    omega
  have hmsg : msgSize msg = msgSize sp.msgbuf := by
    rw [← h.bytes, msgSize_append hlong, msgSize_take (by omega)]
  rw [← hmsg, hsize]

include hmax

/-- The limit does not change it. -/
theorem Partly.limited_eq (h : Partly msg sp) : limited sp = sp := by
  rw [limited]
  by_cases hoff : sp.msgoff < 8
  · rw [if_pos hoff]
  · have hsame : limitSize sp.msgbuf = sp.msgbuf := by
      rw [limitSize, h.msgSize_eq hsize (by omega), if_neg (by omega)]
    rw [if_neg hoff, hsame]

theorem Partly.wanted_eq (h : Partly msg sp) : wanted sp = if sp.msgoff < 8 then 8 else msg.length := by
  by_cases hoff : sp.msgoff < 8
  · rw [wanted, if_pos hoff, if_pos hoff]
  · have hsame : limitSize sp.msgbuf = sp.msgbuf := by
      rw [limitSize, h.msgSize_eq hsize (by omega), if_neg (by omega)]
    have hheader : 8 ≤ sp.msgoff := by omega
    rw [if_neg hoff]
    refine wanted_header hheader ?_ hmax
    rw [hsame, h.msgSize_eq hsize hheader]

include hmin

/-- Where the reading ends, nothing is unread. -/
theorem Partly.wholly (h : Partly msg sp) (hend : wanted sp ≤ sp.msgoff ∨ sp.unread = []) :
    Wholly msg sp.token sp := by
  have hlen := h.length
  have hoff : sp.msgoff = msg.length := by
    rcases hend with hend | hend
    · rw [h.wanted_eq hsize hmax] at hend
      split at hend
      · omega
      · omega
    · rw [hend] at hlen
      exact hlen
  have hbuf : sp.msgbuf.length = sp.msgoff := by
    have hle := h.body (by omega)
    have hge := h.off
    omega
  have hbytes := h.bytes
  have hnil : sp.unread = [] := eq_nil_of_length_eq_zero (by omega)
  rw [hnil, append_nil, take_of_length_le hbuf.le] at hbytes
  exact ⟨hbytes, hoff, rfl⟩

/-- What a round leaves behind: a part, with less unread if bytes were moved, or the whole message. -/
def OnceOk (msg : Bytes) (call : Call) (sp : ScanProc) : ScanProc ⊕ ScanProc → Prop
  | .inl sp' => Partly msg sp' ∧ sp'.token = sp.token ∧
      sp'.unread.length + (if call = .again then 0 else 1) ≤ sp.unread.length
  | .inr sp' => Wholly msg sp.token sp'

theorem Partly.readOnce (h : Partly msg sp) (call : Call) : OnceOk msg call sp (readOnce junk call sp) := by
  have hlen := h.length
  have hwanted := h.wanted_eq hsize hmax
  rw [Scanner.readOnce, h.limited_eq hsize hmax]
  dsimp only
  by_cases hend : wanted sp ≤ sp.msgoff
  · rw [if_pos hend]
    exact h.wholly hsize hmin hmax (.inl hend)
  rw [if_neg hend]
  have hgrow := length_grow junk (wanted sp) sp.msgbuf
  have hkeep := take_grow junk (wanted sp) h.off
  have hwide : max (wanted sp) sp.msgbuf.length = wanted sp := by
    have hheader := h.header
    have hbody := h.body
    split at hwanted
    · omega
    · omega
  rw [hwide] at hgrow
  cases call with
  | again =>
    refine ⟨⟨by dsimp only; omega, hkeep ▸ h.bytes, fun hoff => ?_, fun hoff => ?_⟩, rfl, by simp⟩
    · dsimp only at hoff ⊢
      rw [hgrow, hwanted, if_pos hoff]
    · dsimp only at hoff ⊢
      rw [hgrow, hwanted, if_neg (by omega)]
  | upto n =>
    dsimp only
    obtain ⟨data, hdata⟩ : ∃ data, data = sp.unread.take (min (n + 1) (wanted sp - sp.msgoff)) := ⟨_, rfl⟩
    have hdlen : data.length = min (min (n + 1) (wanted sp - sp.msgoff)) sp.unread.length := by
      rw [hdata, length_take]
    have hne : data ≠ [] := by
      intro hnil
      rw [hnil, length_nil] at hdlen
      have hwhole := h.wholly hsize hmin hmax (.inr (eq_nil_of_length_eq_zero (by omega)))
      rw [hwhole.msgoff] at hend
      split at hwanted
      · omega
      · omega
    have hpre : (grow junk (wanted sp) sp.msgbuf).take sp.msgoff ++ data ++ sp.unread.drop data.length = msg := by
      have hprefix : data <+: sp.unread := hdata ▸ take_prefix _ _
      have hrest := prefix_iff_eq_append.mp hprefix
      rw [hkeep, append_assoc, hrest, h.bytes]
    have hlong : ((grow junk (wanted sp) sp.msgbuf).take sp.msgoff ++ data).length = sp.msgoff + data.length := by
      rw [length_append, length_take, hgrow]
      omega
    have hall : ((grow junk (wanted sp) sp.msgbuf).take sp.msgoff ++ data ++
        (grow junk (wanted sp) sp.msgbuf).drop (sp.msgoff + data.length)).length = wanted sp := by
      rw [length_append, hlong, length_drop, hgrow]
      omega
    have hpos : 0 < data.length := length_pos_iff.mpr hne
    rw [← hdata, if_neg hne]
    refine ⟨⟨?_, ?_, fun hoff => ?_, fun hoff => ?_⟩, rfl, ?_⟩
    · dsimp only
      rw [hall]
      omega
    · dsimp only
      rw [take_left' hlong, hpre]
    · dsimp only at hoff ⊢
      rw [hall, hwanted, if_pos (by omega)]
    · dsimp only at hoff ⊢
      rw [hall, hwanted]
      split
      · exact hmin
      · exact le_refl _
    · dsimp only
      rw [if_neg (by simp), length_drop]
      omega

variable (junk) in
/-- Whatever the calls do, the reading ends with the message, and it ends. -/
theorem Partly.readAll (h : Partly msg sp) (calls : List Call) :
    (∀ sp', readAll junk calls sp = some sp' → Wholly msg sp.token sp') ∧
    (sp.unread.length ≤ moves calls → (readAll junk calls sp).isSome) := by
  induction calls generalizing sp with
  | nil =>
    rw [Scanner.readAll, h.limited_eq hsize hmax]
    by_cases hend : wanted sp ≤ sp.msgoff
    · rw [if_pos hend]
      exact ⟨fun sp' hsp' => Option.some.inj hsp' ▸ h.wholly hsize hmin hmax (.inl hend), fun _ => rfl⟩
    · rw [if_neg hend]
      refine ⟨fun sp' hsp' => (by cases hsp'), fun hmoves => ?_⟩
      have hnil : sp.unread = [] := eq_nil_of_length_eq_zero (Nat.le_zero.mp hmoves)
      have hwhole := h.wholly hsize hmin hmax (.inr hnil)
      have hwanted := h.wanted_eq hsize hmax
      rw [hwhole.msgoff] at hwanted hend
      rw [if_neg (by omega)] at hwanted
      omega
  | cons call calls ih =>
    rw [Scanner.readAll]
    have hround : OnceOk msg call sp (Scanner.readOnce junk call sp) := h.readOnce hsize hmin hmax call
    cases hr : Scanner.readOnce junk call sp with
    | inr sp' =>
      rw [hr] at hround
      exact ⟨fun sp'' hsp' => Option.some.inj hsp' ▸ hround, fun _ => rfl⟩
    | inl sp' =>
      rw [hr] at hround
      obtain ⟨hpart, htoken, hless⟩ := hround
      obtain ⟨hends, htotal⟩ := ih hpart
      refine ⟨fun sp'' hsp' => htoken ▸ hends sp'' hsp', fun hmoves => htotal ?_⟩
      cases call with
      | again =>
        rw [moves_again] at hmoves
        omega
      | upto n =>
        rw [moves_upto] at hmoves
        rw [if_neg (by simp)] at hless
        omega

end Reading

/-! ### The checks of the master -/

section Accepted

variable {E : ℤ → Prop} {K : Kernel} {m : Bytes}

/-- A structure with a length field that fits gets through all checks. -/
theorem lenCheck_accepts {size off b : ℕ} {l v : ℤ} {len : ℕ → Option ℤ} (hlen : len b = some v)
    (hl : size ≤ l ∧ off ≤ l ∧ 0 < l ∧ l ≤ Sizes.sizeLimit) (hv : 0 ≤ v ∧ off + v ≤ l) :
    wp E (Sizes.lenCheckFunction size off len) (fun r _ => r = off + v) ⟨b, l, 0⟩ := by
  have hlim : Sizes.sizeLimit = 50000 := rfl
  refine Sizes.castTo_rule (fun _ => Sizes.get_rule ?_) fun hbad => absurd hl.1 hbad
  refine Sizes.shiftField_rule (by dsimp only; omega) Sizes.size_zero (fun _ _ _ => Sizes.get_rule ?_)
    fun hbad => absurd (by dsimp only; omega) hbad
  refine Sizes.peek_rule hlen (Sizes.checkLen_rule (by omega) (by dsimp only; omega) (fun _ _ _ => ?_)
    fun hbad => absurd (by dsimp only; omega) hbad)
  refine Sizes.addSize_rule (by omega) (by dsimp only; omega) (fun _ _ => ?_)
    fun hbad => absurd (by dsimp only; omega) hbad
  refine Sizes.returnSize_rule (by dsimp only; omega) (fun _ _ => ?_) fun hbad => absurd (by dsimp only; omega) hbad
  dsimp only
  omega

/-- The reply is as long as its header and its payload. -/
theorem anoubisdMsgSize_reply {n : ℕ} (hm : m.length = 24 + n) (hmax : m.length ≤ replyLimit)
    (ht : host m 4 4 = pgcommitReply) (hn : host m 16 4 = n) : anoubisdMsgSize K m = some ((24 + n : ℕ) : ℤ) := by
  have hlim : Sizes.sizeLimit = 50000 := rfl
  have hmax' : replyLimit < 50000 := by decide
  have hread : ((Sizes.readHost m (8 + 8) 4).map fun n => (n : ℤ)) = some (n : ℤ) := by
    rw [Sizes.readHost_eq (by omega), hn]
    rfl
  obtain ⟨r, hr, hval⟩ : ∃ r, result (Sizes.pgcommitReplySize m) ⟨8, m.length - 8, 0⟩ = some r ∧ r = 16 + (n : ℤ) :=
    result_of_wp (lenCheck_accepts hread (by omega) (by omega))
  obtain ⟨r', hr', hval'⟩ : ∃ r, result (Sizes.msgWalk K m) ⟨0, m.length, 0⟩ = some r ∧ r = (24 + n : ℕ) := by
    refine result_of_wp ?_
    refine Sizes.castTo_rule (fun _ => Sizes.get_rule ?_) fun hbad => absurd (by dsimp only; omega) hbad
    refine Sizes.shiftField_rule (by dsimp only; omega) Sizes.size_zero (fun _ _ _ => ?_)
      fun hbad => absurd (by dsimp only; omega) hbad
    refine Sizes.peek_rule (Sizes.readHost_eq (by dsimp only; omega)) ?_
    have hidx : Sizes.msgTypes[pgcommitReply]? = some .pgcommitReply := rfl
    dsimp only [Nat.reduceAdd]
    rw [ht, hidx]
    dsimp only
    rw [wp_bind, Sizes.variant]
    refine Sizes.get_rule (Sizes.peek_rule hr ?_)
    rw [← bind_pure (Sizes.addSize r)]
    refine Sizes.addSize_rule (by omega) (by dsimp only; omega) (fun _ _ => ?_)
      fun hbad => absurd (by dsimp only; omega) hbad
    refine Sizes.returnSize_rule (by dsimp only; omega) (fun _ _ => ?_) fun hbad => absurd (by dsimp only; omega) hbad
    dsimp only
    omega
  rw [anoubisdMsgSize, hr', hval']

/-- The master takes the message of the child for what it is. -/
theorem scanReply_replyMsg {error : ℕ} {payload : Bytes} (hfits : payload.length + 24 ≤ replyLimit) {sp : ScanProc}
    {token : ℕ} (h : Wholly (replyMsg error payload) token sp) :
    scanReply K ⟨none, none⟩ sp = some (.ok (replyMsg error payload)) := by
  have hlen := length_replyMsg error payload
  have hsize := msgSize_replyMsg error hfits
  have hverify : amsgVerifyNonfatal K (replyMsg error payload) = some (some (replyMsg error payload)) := by
    rw [amsgVerifyNonfatal, hsize, if_neg (by omega), anoubisdMsgSize_reply (n := payload.length) (by omega) (by omega)
      (mtype_replyMsg error payload) (len_replyMsg error hfits), Option.map_some, if_neg (by omega), if_neg (by omega),
      Int.toNat_natCast]
    have hfill := Amsg.fillFrom_of_length_le (n := 24 + payload.length) (m := replyMsg error payload) (by omega)
    rw [hfill]
  have hoff := h.msgoff
  rw [scanReply, h.msgbuf, if_neg (by omega), if_neg (not_not_intro (mtype_replyMsg error payload)), hlen,
    bmod_limit hfits, hsize, if_neg (not_not_intro rfl), hverify]
  simp

end Accepted

/-! ### The whole way -/

/-- The calls move all bytes: the output of each scanner, and the message at both ends of the pipe. -/
structure Enough (x : Scan) : Prop where
  outputs : ∀ r ∈ x.runs, textLimit < moves r.2.reads
  writes : replyLimit ≤ x.writes.length
  reads : replyLimit ≤ moves x.reads

/-- A scanner with enough reads has a result. -/
theorem readOutput_total (stop : Option ℕ) {k : ℕ} {out : Bytes} {text : CString}
    (h : textLimit - text.length < moves calls) : (readOutput stop calls k out text).isSome := by
  induction calls generalizing k out text with
  | nil => exact absurd h (Nat.not_lt_zero _)
  | cons call calls ih =>
    by_cases h0 : textLimit - text.length = 0
    · cases call <;> simp [readOutput, h0]
    cases call with
    | again =>
      rw [moves_again] at h
      rw [readOutput, if_neg h0]
      by_cases hstop : stop = some k
      · rw [if_pos hstop]
        rfl
      · rw [if_neg hstop]
        exact ih h
    | upto n =>
      rw [moves_upto] at h
      rw [readOutput, if_neg h0]
      generalize out.take (min (n + 1) (textLimit - text.length)) = data
      dsimp only
      by_cases hnil : data = []
      · rw [if_pos hnil]
        rfl
      rw [if_neg hnil]
      by_cases hnul : (cString data).length < data.length
      · rw [if_pos hnul]
        rfl
      rw [if_neg hnul]
      by_cases hstop : stop = some k
      · rw [if_pos hstop]
        rfl
      · rw [if_neg hstop]
        have hpos := length_pos_iff.mpr hnil
        refine ih ?_
        rw [length_append]
        omega

theorem scannerRun_total (s : PgScanner) {a : Attempt} (h : textLimit < moves a.reads) : (scannerRun s a).isSome := by
  rw [scannerRun]
  by_cases hallow : sameFold s.path (cLit "allow") = true
  · rw [if_pos hallow]
    rfl
  by_cases hdeny : sameFold s.path (cLit "deny") = true
  · rw [if_neg hallow, if_pos hdeny]
    rfl
  rw [if_neg hallow, if_neg hdeny]
  cases a.error with
  | some str => rfl
  | none =>
    dsimp only
    rw [Option.isSome_map]
    exact readOutput_total a.terminated (lt_of_le_of_lt (Nat.sub_le _ _) h)

theorem scannerMain_total {flags : ℕ} {runs : Runs} (h : ∀ r ∈ runs, textLimit < moves r.2.reads) :
    (scannerMain flags runs).isSome := by
  have hall : (scanAll flags runs).isSome := by
    induction runs with
    | nil => rfl
    | cons r runs ih =>
      obtain ⟨s, a⟩ := r
      have hrest := ih fun r hr => h r (mem_cons_of_mem _ hr)
      rw [scanAll]
      by_cases hskip : flags ≠ 0 ∧ s.required = false
      · rw [if_pos hskip]
        exact hrest
      · obtain ⟨result, hresult⟩ := Option.isSome_iff_exists.mp (scannerRun_total s (h (s, a) mem_cons_self))
        rw [if_neg hskip, hresult, Option.bind_some]
        by_cases hterm : a.terminated.isSome = true
        · rw [if_pos hterm]
          rfl
        · rw [if_neg hterm, Option.isSome_map]
          exact hrest
  rw [scannerMain]
  by_cases hempty : runs = []
  · rw [if_pos hempty]
    rfl
  · rw [if_neg hempty, Option.isSome_map]
    exact hall

/-- A verdict that fits into a message is what the user is told. -/
theorem told {K : Kernel} {junk : ℕ → UInt8} {sp : ScanProc}
    (hmain : scannerMain x.flags x.runs = some (error, payload)) (hwrites : ∀ call ∈ x.writes, call ≠ .again)
    (hfits : payload.length + 24 ≤ replyLimit) (herror : error < 4294967296) :
    (Enough x → (scanVerdict K junk x sp).isSome) ∧
    ∀ reply, scanVerdict K junk x sp = some reply → reply = ⟨sp.token, error, payload⟩ := by
  have hlen := length_replyMsg error payload
  have hsize : msgSize (replyMsg error payload) = (replyMsg error payload).length := by
    rw [hlen, msgSize_replyMsg error hfits]
  have hpart : Partly (replyMsg error payload)
      { sp with msgbuf := [], msgoff := 0, unread := replyMsg error payload, unwritten := [] } :=
    ⟨le_refl _, rfl, fun _ => Nat.zero_le _, fun _ => Nat.zero_le _⟩
  obtain ⟨hends, htotal⟩ := hpart.readAll junk hsize (by omega) (by omega) x.reads
  have hreply : ∀ sp', Wholly (replyMsg error payload) sp.token sp' →
      (scanReply K ⟨none, none⟩ sp').bind (makeReply sp'.token) = some ⟨sp.token, error, payload⟩ := by
    intro sp' hwhole
    have hp := len_replyMsg error hfits
    rw [scanReply_replyMsg hfits hwhole, Option.bind_some, makeReply_ok _ (by omega), hp,
      error_replyMsg herror, payload_replyMsg, take_length, hwhole.token_eq]
  have hout : ∀ out, writeReply (memory x.around (replyMsg error payload)) (payload.length + 24) x.writes 0 = some out →
      out = replyMsg error payload := by
    intro out hw
    rw [← hlen] at hw
    have hstart : writeReply (memory x.around (replyMsg error payload)) (replyMsg error payload).length x.writes
        (0 : ℕ) = some out := hw
    exact writeReply_out x.around _ hwrites (Nat.zero_le _) hstart
  rw [scanVerdict, hmain, Option.bind_some]
  dsimp only
  constructor
  · intro henough
    have hmany := henough.writes
    have hreads := henough.reads
    have hwritten : (writeReply (memory x.around (replyMsg error payload)) (payload.length + 24) x.writes
        (0 : ℕ)).isSome := writeReply_total _ _ hwrites (by omega)
    obtain ⟨out, hw⟩ := Option.isSome_iff_exists.mp hwritten
    obtain ⟨sp', hread⟩ := Option.isSome_iff_exists.mp (htotal (by dsimp only; omega))
    have hw' : writeReply (memory x.around (replyMsg error payload)) (payload.length + 24) x.writes 0 = some out := hw
    rw [hw', Option.bind_some, hout out hw', exitReply, hread, Option.bind_some, hreply sp' (hends sp' hread)]
    rfl
  · intro reply h
    obtain ⟨out, hw, h⟩ := Option.bind_eq_some_iff.mp h
    rw [hout out hw] at h
    obtain ⟨sp', hread, h⟩ := Option.bind_eq_some_iff.mp h
    rw [hreply sp' (hends sp' hread)] at h
    exact (Option.some.inj h).symm

/-- The error and the payload of each verdict fit into the message of the child, where its reports do. -/
theorem Verdict.fits (h : Verdict x error payload)
    (hfits : (∀ r ∈ mustRun x, r.2.terminated = none) → (failed x).length ≤ 80 →
      ((reports x).flatMap cBytes).length + 24 ≤ replyLimit) :
    payload.length + 24 ≤ replyLimit ∧ error < 4294967296 := by
  cases h with
  | empty => exact ⟨by decide, by decide⟩
  | terminated => exact ⟨by decide, by decide⟩
  | many => exact ⟨by decide, by decide⟩
  | success => exact ⟨by decide, by decide⟩
  | failure hnot hsome hfew =>
    refine ⟨hfits hnot hfew, ?_⟩
    split
    · decide
    · decide

theorem mem_failed {r : PgScanner × Attempt} : r ∈ failed x ↔ r ∈ mustRun x ∧ exitOf r ≠ 0 := by
  simp [failed]

theorem mustRun_nil (h : x.runs = []) : mustRun x = [] := by
  rw [mustRun, h, filter_nil]

theorem failed_nil (h : x.runs = []) : failed x = [] := by
  rw [failed, mustRun_nil h, filter_nil]

/-- Somebody failed. -/
theorem not_all_succeed (h : failed x ≠ []) : ¬ ∀ r ∈ mustRun x, exitOf r = 0 ∧ r.2.terminated = none := by
  intro hall
  obtain ⟨r, hr⟩ := exists_mem_of_ne_nil _ h
  obtain ⟨hmem, hexit⟩ := mem_failed.mp hr
  exact hexit (hall r hmem).1

theorem not_terminated (h : ∀ r ∈ mustRun x, r.2.terminated = none) : ¬ ∃ r ∈ mustRun x, r.2.terminated.isSome := by
  rintro ⟨r, hr, hsome⟩
  rw [h r hr] at hsome
  cases hsome

/-- The user is told success if and only if all scanners that must run succeed. -/
theorem Verdict.success_iff (h : Verdict x error payload) :
    error = 0 ↔ x.runs ≠ [] ∧ ∀ r ∈ mustRun x, exitOf r = 0 ∧ r.2.terminated = none := by
  cases h with
  | empty hempty => exact iff_of_false (by decide) fun hok => hok.1 hempty
  | terminated hterm => exact iff_of_false (by decide) fun hok => not_terminated (fun r hr => (hok.2 r hr).2) hterm
  | many hnot hmany =>
    have hsome : failed x ≠ [] := by
      intro hnil
      rw [hnil] at hmany
      exact absurd hmany (Nat.not_lt_zero _)
    exact iff_of_false (by decide) fun hok => not_all_succeed hsome hok.2
  | success hne hall => exact iff_of_true rfl ⟨hne, fun r hr => (hall r hr).symm⟩
  | failure hnot hsome hfew =>
    refine iff_of_false ?_ fun hok => not_all_succeed hsome hok.2
    split
    · decide
    · decide

/-- A scan without scanners, and a scan that is terminated. -/
theorem Verdict.early (h : Verdict x error payload) : (x.runs = [] → error = eperm ∧ payload = []) ∧
    ((∃ r ∈ mustRun x, r.2.terminated.isSome) → error = eintr ∧ payload = []) := by
  have hnone (hempty : x.runs = []) : ¬ ∃ r ∈ mustRun x, r.2.terminated.isSome := by
    rintro ⟨r, hr, -⟩
    rw [mustRun_nil hempty] at hr
    cases hr
  cases h with
  | empty hempty => exact ⟨fun _ => ⟨rfl, rfl⟩, fun hterm => absurd hterm (hnone hempty)⟩
  | terminated hterm => exact ⟨fun hempty => absurd hterm (hnone hempty), fun _ => ⟨rfl, rfl⟩⟩
  | many hnot hmany =>
    refine ⟨fun hempty => ?_, fun hterm => absurd hterm (not_terminated hnot)⟩
    rw [failed_nil hempty] at hmany
    exact absurd hmany (Nat.not_lt_zero _)
  | success hne hall =>
    exact ⟨fun hempty => absurd hempty hne, fun hterm => absurd hterm (not_terminated fun r hr => (hall r hr).1)⟩
  | failure hnot hsome hfew =>
    exact ⟨fun hempty => absurd (failed_nil hempty) hsome, fun hterm => absurd hterm (not_terminated hnot)⟩

/-- A scan with failures that runs to its end. -/
theorem Verdict.failures (h : Verdict x error payload) (hnot : ∀ r ∈ mustRun x, r.2.terminated = none)
    (hsome : failed x ≠ []) : (80 < (failed x).length → error = efault ∧ payload = []) ∧ ((failed x).length ≤ 80 →
      error = (if ∃ r ∈ failed x, r.1.required = true then eperm else eagain) ∧
      pgcommitStrings payload = reports x) := by
  cases h with
  | empty hempty => exact absurd (failed_nil hempty) hsome
  | terminated hterm => exact absurd hterm (not_terminated hnot)
  | many _ hmany => exact ⟨fun _ => ⟨rfl, rfl⟩, fun hfew => absurd hmany (not_lt.mpr hfew)⟩
  | success hne hall => exact absurd (fun r hr => (hall r hr).symm) (not_all_succeed hsome)
  | failure _ _ hfew =>
    refine ⟨fun hmany => absurd hmany (not_lt.mpr hfew), fun _ => ⟨?_, pgcommitStrings_flatMap _⟩⟩
    simp only [any_eq_true]

/-- A scan of user 1000 that has the token 7. -/
def sampleProc : ScanProc := ⟨1, 7, 5, some 3, 1000, 200, [], 0, [], []⟩

/-- A required scanner denies, and a recommended one finds something. -/
def denied : Scan where
  flags := 0
  runs := [(⟨cLit "deny", cLit "Denies all", true⟩, ⟨none, [], List.replicate 2000 (.upto 0), none, .exited 0⟩),
    (⟨cLit "/bin/scan", cLit "Scans", false⟩,
      ⟨none, [98, 97, 100], List.replicate 2000 (.upto 0), none, .exited 1⟩)]
  around := fun _ => 0
  writes := List.replicate 8000 (.upto 0)
  reads := List.replicate 8000 (.upto 0)

theorem moves_replicate (n k : ℕ) : moves (List.replicate n (.upto k)) = n := by
  rw [moves, countP_replicate]
  rfl

theorem enough_denied : Enough denied where
  outputs := by
    intro r hr
    have hmoves := moves_replicate 2000 0
    simp only [denied, mem_cons, not_mem_nil, or_false] at hr
    rcases hr with rfl | rfl
    · dsimp only
      rw [hmoves]
      decide
    · dsimp only
      rw [hmoves]
      decide
  writes := by
    rw [denied, length_replicate]
    exact le_refl _
  reads := by
    rw [denied, moves_replicate]
    exact le_refl _

/-- A required scanner denies, and the next one is terminated. -/
def interrupted : Scan where
  flags := 0
  runs := [(⟨cLit "deny", cLit "Denies all", true⟩, ⟨none, [], [], none, .exited 0⟩),
    (⟨cLit "/bin/scan", cLit "Scans", true⟩, ⟨none, [], [.again], some 0, .exited 0⟩)]
  around := fun _ => 0
  writes := [.upto 99]
  reads := [.upto 99, .upto 99]

end Anoubis.Daemon.Scanner

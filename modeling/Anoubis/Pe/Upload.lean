import Anoubis.Basic
import Mathlib.Data.List.Basic

/-! Policy upload (`pe_user.c`, `pe_dispatch_policy`).

    A client sends a policy as a POLICY_FLAG_START message, continuation messages and a
    POLICY_FLAG_END message under one token. The first `siglen` payload bytes are the signature, the
    rest is the policy; a long-lived request object keeps the running count `written` and two open
    temporary files. The END message verifies, parses and installs.

        START --> open tmp, tmp.sig --> data --> (more data)* --> END: verify, parse, rename, insert
          │ any error                     │ any error                │ any error
          └──────────▶ reply error, unlink tmp files, drop the request ◀┘

    Library and kernel behaviour enters through `Env`: short or failing writes, failing opens, the
    certificate table, signature verification and the policy parser. Rulesets and keys are opaque
    here. The `writes` component of the state is the trace of all successful `write(2)` calls. -/

namespace Anoubis.Pe.Upload

open List

/-- PE_PRIO_ADMIN, PE_PRIO_USER1 and the number of priorities. -/
def prioAdmin : ℕ := 0
def prioUser1 : ℕ := 1
def prioMax : ℕ := 2

def ptypeGetByUid : ℕ := 0x100
def ptypeSetByUid : ℕ := 0x101

/-- File names built by `pe_policy_filename`: the installed policy and signature of `(uid, prio)`
    and the temporary ones of a request token. -/
inductive FName where
  | real (uid prio : ℕ)
  | realSig (uid prio : ℕ)
  | tmp (uid prio token : ℕ)
  | tmpSig (uid prio token : ℕ)
  deriving DecidableEq

/-- `struct anoubisd_msg_polrequest`. -/
structure PolRequest where
  token : ℕ
  authUid : ℕ
  start : Bool
  fin : Bool
  data : List UInt8

/-- The two message types `pe_dispatch_policy` handles. -/
inductive Msg where
  | request (p : PolRequest)
  | abort (token : ℕ)

/-- `struct pe_policy_request`. A file descriptor is the name of the open file. -/
structure Req where
  token : ℕ
  ptype : ℕ
  authUid : ℕ
  fd : Option FName
  fdsig : Option FName
  prio : ℕ
  uid : ℕ
  written : ℕ
  siglen : ℕ
  tmpname : Option FName
  tmpsig : Option FName
  deriving DecidableEq

/-- Big-endian `u32n` at offset `off`. -/
def be32 (data : List UInt8) (off : ℕ) : ℕ :=
  ((data.drop off).take 4).foldl (fun n b => n * 256 + b.toNat) 0

/-- Big-endian `u16n` at offset `off`. -/
def be16 (data : List UInt8) (off : ℕ) : ℕ :=
  ((data.drop off).take 2).foldl (fun n b => n * 256 + b.toNat) 0

/-- `sizeof(Policy_Generic)`, `sizeof(Policy_GetByUid)` and `sizeof(Policy_SetByUid)`. -/
def sizeGeneric : ℕ := 4
def sizeGetByUid : ℕ := 12
def sizeSetByUid : ℕ := 14

/-- What the daemon does not control. `policyGet` is `pe_policy_get` followed by the result of
    `send_policy_data`. The `k`-th system call of a kind may fail with an errno, and a
    write may transfer fewer bytes than asked for. -/
structure Env (Key R : Type) where
  policysize : ℕ
  cert : ℕ → ℕ → Option Key
  verify : Key → List UInt8 → List UInt8 → Bool
  parse : List UInt8 → Bool → Option R
  policyGet : ℕ → ℕ → Except ℕ ℕ
  openErr : ℕ → Option ℕ
  write : ℕ → Except ℕ ℕ
  fsyncErr : ℕ → Option ℕ
  renameErr : ℕ → Option ℕ

/-- Daemon state: open requests, file contents, installed rulesets, the trace of writes and the
    number of system calls made so far. -/
structure State (R : Type) where
  preqs : List Req
  files : FName → Option (List UInt8)
  pdb : ℕ → ℕ → Option R
  writes : List (FName × List UInt8)
  clock : ℕ

/-- A reply message (`ANOUBISD_MSG_POLREPLY`) and its error code. -/
structure Reply where
  token : ℕ
  error : ℕ
  deriving DecidableEq

variable {Key R : Type}

def State.put (st : State R) (f : FName) (c : Option (List UInt8)) : State R :=
  { st with files := fun g => if g = f then c else st.files g }

def State.tick (st : State R) : State R := { st with clock := st.clock + 1 }

/-- Append `bs` to the open file `f` and record the call. -/
def State.append (st : State R) (f : FName) (bs : List UInt8) : State R :=
  { st.put f (some ((st.files f).getD [] ++ bs)) with writes := st.writes ++ [(f, bs)] }

/-- `pe_policy_request_find`. -/
def pePolicyRequestFind (st : State R) (token : ℕ) : Option Req :=
  st.preqs.find? (fun r => r.token = token)

def unlinkOpt (st : State R) : Option FName → State R
  | none => st
  | some f => st.put f none

/-- `LIST_REMOVE` followed by `pe_policy_request_put`: the temporary files are unlinked. -/
def pePolicyRequestPut (st : State R) (req : Req) : State R :=
  let st := { st with preqs := st.preqs.filter (fun r => r.token ≠ req.token) }
  unlinkOpt (unlinkOpt st req.tmpname) req.tmpsig

/-- Store the updated request object. -/
def State.setReq (st : State R) (req : Req) : State R :=
  { st with preqs := st.preqs.map (fun r => if r.token = req.token then req else r) }

/-- Result of one of the two write loops: done, failed with an errno, or a read past the end of the
    message data. -/
inductive WRes (R : Type) where
  | done (st : State R) (buf : List UInt8) (written : ℕ)
  | err (st : State R) (errno : ℕ)
  | overread

/-- `while (n) { ret = write(fd, buf, n); … }`. Every successful call transfers at least one byte,
    so `n` rounds suffice. -/
def writeLoop (env : Env Key R) (f : FName) :
    ℕ → ℕ → State R → List UInt8 → ℕ → WRes R
  | 0, _, st, buf, written => .done st buf written
  | fuel + 1, n, st, buf, written =>
    if n = 0 then .done st buf written
    else match env.write st.clock with
      | .error e => .err st.tick e
      | .ok k =>
        let ret := min n (max 1 k)
        if buf.length < ret then .overread
        else writeLoop env f fuel (n - ret) (st.tick.append f (buf.take ret)) (buf.drop ret)
          (written + ret)

/-- Result of handling one message. `undef` is a read past the end of the message. -/
inductive Outcome (R : Type) where
  | ret (reply : Option Reply) (st : State R)
  | undef

/-- The `reply:` label. -/
def reply (st : State R) (req : Option Req) (token error : ℕ) : Outcome R :=
  match req with
  | none => .ret (some ⟨token, error⟩) st
  | some r => .ret (some ⟨token, error⟩) (pePolicyRequestPut st r)

/-- `open(name, O_WRONLY|O_CREAT|O_EXCL)`. -/
def openExcl (env : Env Key R) (st : State R) (f : FName) : Except ℕ (State R) × State R :=
  match env.openErr st.clock with
  | some e => (.error e, st.tick)
  | none => if (st.files f).isSome then (.error eexist, st.tick)
            else (.ok (st.tick.put f (some [])), st.tick)

/-- The END branch of `ANOUBIS_PTYPE_SETBYUID`. `key0` is the local variable `key` as the START
    branch of this very call left it. -/
def finish (env : Env Key R) (st : State R) (req : Req) (key0 : Option Key) : Outcome R :=
  let key := if 0 < req.siglen then env.cert req.uid req.prio else key0
  let policy := (st.files (.tmp req.uid req.prio req.token)).getD []
  let sig := (st.files (.tmpSig req.uid req.prio req.token)).getD []
  if (match key with
      | some k => !env.verify k policy sig
      | none => false) then reply st req req.token einval
  else match env.parse policy (req.prio ≠ prioUser1) with
    | none => reply st req req.token einval
    | some rs =>
      match env.fsyncErr st.clock with
      | some e => reply st.tick req req.token e
      | none => match env.renameErr st.tick.clock with
        | some e => reply st.tick.tick req req.token e
        | none =>
          let st := st.tick.tick
          let st := (st.put (.real req.uid req.prio) (some policy)).put
            (.tmp req.uid req.prio req.token) none
          let ins (st : State R) : State R :=
            { st with pdb := fun u p => if u = req.uid ∧ p = req.prio then some rs else st.pdb u p }
          if req.siglen = 0 then reply (ins st) req req.token 0
          else match env.fsyncErr st.clock with
            | some e => reply st.tick req req.token e
            | none => match env.renameErr st.tick.clock with
              | some e => reply st.tick.tick req req.token e
              | none =>
                let st := st.tick.tick
                let st := (st.put (.realSig req.uid req.prio) (some sig)).put
                  (.tmpSig req.uid req.prio req.token) none
                reply (ins st) req req.token 0

/-- The part of `ANOUBIS_PTYPE_SETBYUID` behind the START branch: size limit, the two write loops
    and, with POLICY_FLAG_END, the installation. -/
def setData (env : Env Key R) (st : State R) (req : Req) (p : PolRequest) (key0 : Option Key)
    (buf : List UInt8) : Outcome R :=
  let len := buf.length
  if 0 < env.policysize ∧ env.policysize < req.written + len then reply st req p.token efbig
  else if req.authUid ≠ p.authUid then reply st req p.token eperm
  else
    let sLen := if req.written < req.siglen then
        (if req.siglen - req.written < len then req.siglen else len) else 0
    match writeLoop env (.tmpSig req.uid req.prio req.token) sLen sLen st buf req.written with
    | .overread => .undef
    | .err st e => reply st req p.token e
    | .done st buf written =>
      match writeLoop env (.tmp req.uid req.prio req.token) buf.length buf.length st buf written with
      | .overread => .undef
      | .err st e => reply st req p.token e
      | .done st _ written =>
        let req : Req := { req with written := written }
        let st := st.setReq req
        if p.fin then finish env st req key0 else .ret none st

/-- The START branch of `ANOUBIS_PTYPE_SETBYUID`. -/
def setStart (env : Env Key R) (st : State R) (req : Req) (p : PolRequest) : Outcome R :=
  if p.data.length < sizeSetByUid then reply st req p.token einval
  else
    let uid := be32 p.data 4
    let prio := be32 p.data 8
    let siglen := be16 p.data 12
    if prioMax ≤ prio then reply st req p.token einval
    else if uid ≠ req.authUid ∧ req.authUid ≠ 0 then reply st req p.token eperm
    else if prio = prioAdmin ∧ req.authUid ≠ 0 then reply st req p.token eperm
    else
      let req : Req := { req with uid := uid, prio := prio, siglen := siglen }
      let key := env.cert uid prio
      if key.isSome ∧ siglen = 0 then reply st req p.token einval
      else
        let req : Req := { req with
          tmpname := some (.tmp uid prio p.token)
          tmpsig := if 0 < siglen then some (.tmpSig uid prio p.token) else none }
        let sigOpen := if 0 < siglen then openExcl env st (.tmpSig uid prio p.token)
          else (.ok st, st)
        match sigOpen with
        | (.error e, st) => reply st req p.token e
        | (.ok st, _) =>
          let req : Req := { req with fdsig := req.tmpsig }
          match openExcl env st (.tmp uid prio p.token) with
          | (.error e, st) => reply st req p.token e
          | (.ok st, _) =>
            let req : Req := { req with fd := req.tmpname }
            setData env (st.setReq req) req p key (p.data.drop sizeSetByUid)

/-- `ANOUBIS_PTYPE_GETBYUID`: a single message answered from the policy database. -/
def getByUid (env : Env Key R) (st : State R) (req : Req) (p : PolRequest) : Outcome R :=
  if p.fin = false ∨ p.data.length < sizeGetByUid then reply st req p.token einval
  else
    let uid := be32 p.data 4
    let prio := be32 p.data 8
    if prioMax ≤ prio then reply st req p.token einval
    else if p.authUid ≠ uid ∧ p.authUid ≠ 0 then reply st req p.token eperm
    else match env.policyGet uid prio with
      -- ENOENT is an empty policy, not an error
      | .error e => reply st req p.token (if e = enoent then 0 else eio)
      | .ok sendErr =>
        if sendErr ≠ 0 then reply st req p.token sendErr else .ret none (pePolicyRequestPut st req)

/-- `pe_dispatch_policy`. -/
def peDispatchPolicy (env : Env Key R) (st : State R) : Msg → Outcome R
  | .abort token =>
    match pePolicyRequestFind st token with
    | none => .ret none st
    | some req => .ret none (pePolicyRequestPut st req)
  | .request p =>
    match pePolicyRequestFind st p.token with
    | some req =>
      if p.start then reply st req p.token ebusy
      else if req.authUid ≠ p.authUid then reply st req p.token eperm
      else if req.ptype = ptypeGetByUid then getByUid env st req p
      else if req.ptype = ptypeSetByUid then setData env st req p none p.data
      else reply st req p.token einval
    | none =>
      if p.start = false then reply st none p.token esrch
      else if p.data.length < sizeGeneric then reply st none p.token einval
      else
        let req : Req := ⟨p.token, be32 p.data 0, p.authUid, none, none, 0, 0, 0, 0, none, none⟩
        let st := { st with preqs := req :: st.preqs }
        if req.ptype = ptypeGetByUid then getByUid env st req p
        else if req.ptype = ptypeSetByUid then setStart env st req p
        else reply st req p.token einval

/-! ### Whole uploads -/

/-- Handle a list of messages one after the other. -/
def run (env : Env Key R) : State R → List Msg → Option (State R)
  | st, [] => some st
  | st, m :: ms =>
    match peDispatchPolicy env st m with
    | .undef => none
    | .ret _ st => run env st ms

/-- Continuation messages: the last one carries POLICY_FLAG_END. -/
def conts (token authUid : ℕ) : List (List UInt8) → List Msg
  | [] => []
  | c :: cs => .request ⟨token, authUid, false, cs.isEmpty, c⟩ :: conts token authUid cs

/-- An upload of the chunks `c :: cs` behind the `Policy_SetByUid` header `hdr`. -/
def upload (token authUid : ℕ) (hdr c : List UInt8) (cs : List (List UInt8)) : List Msg :=
  .request ⟨token, authUid, true, cs.isEmpty, hdr ++ c⟩ :: conts token authUid cs

/-- All bytes that the trace `w` wrote to the file `f`. -/
def bytesTo (f : FName) (w : List (FName × List UInt8)) : List UInt8 :=
  (w.filter (fun e => e.1 = f)).flatMap (·.2)

@[simp] theorem bytesTo_nil (f : FName) : bytesTo f [] = [] := rfl

@[simp] theorem bytesTo_append (f : FName) (v w : List (FName × List UInt8)) :
    bytesTo f (v ++ w) = bytesTo f v ++ bytesTo f w := by
  simp [bytesTo]

/-! ### The write loops -/

variable (st : State R)

@[simp] theorem writes_tick : st.tick.writes = st.writes := rfl

@[simp] theorem preqs_tick : st.tick.preqs = st.preqs := rfl

@[simp] theorem writes_append (f : FName) (bs : List UInt8) : (st.append f bs).writes = st.writes ++ [(f, bs)] := rfl

@[simp] theorem preqs_append (f : FName) (bs : List UInt8) : (st.append f bs).preqs = st.preqs := rfl

/-- With writes that do not fail, the loop transfers exactly the `n` bytes asked for if the message
    has them, however the calls cut them up. -/
theorem writeLoop_done (env : Env Key R) (f : FName) (hw : ∀ k, ∃ n, env.write k = .ok n) :
    ∀ (fuel n : ℕ) (st : State R) (buf : List UInt8) (written : ℕ), n ≤ fuel → n ≤ buf.length →
      ∃ st', writeLoop env f fuel n st buf written = .done st' (buf.drop n) (written + n) ∧
        st'.preqs = st.preqs ∧ ∃ w, st'.writes = st.writes ++ w ∧
          bytesTo f w = buf.take n ∧ ∀ g, g ≠ f → bytesTo g w = []
  | 0, n, st, buf, written, hf, _ => by
      obtain rfl : n = 0 := by omega
      exact ⟨st, by simp [writeLoop], rfl, [], by simp, by simp, by simp⟩
  | fuel + 1, n, st, buf, written, hf, hn => by
      rw [writeLoop]
      by_cases h0 : n = 0
      · subst h0
        exact ⟨st, by simp, rfl, [], by simp, by simp, by simp⟩
      · obtain ⟨k, hk⟩ := hw st.clock
        have hret : min n (max 1 k) ≤ n := Nat.min_le_left _ _
        have hpos : 0 < min n (max 1 k) := by omega
        simp only [h0, if_false, hk]
        generalize min n (max 1 k) = ret at hret hpos ⊢
        rw [if_neg (by omega)]
        obtain ⟨st', hrun, hp, w, hwr, hf1, hf2⟩ := writeLoop_done env f hw fuel (n - ret)
          (st.tick.append f (buf.take ret)) (buf.drop ret) (written + ret) (by omega)
          (by rw [length_drop]; omega)
        refine ⟨st', ?_, by simpa using hp, (f, buf.take ret) :: w, by simpa using hwr, ?_, ?_⟩
        · rw [hrun, drop_drop, add_assoc, Nat.add_sub_cancel' hret]
        · have hsplit : buf.take n = buf.take ret ++ (buf.drop ret).take (n - ret) := by
            rw [← take_add, Nat.add_sub_cancel' hret]
          rw [hsplit, ← hf1]
          simp [bytesTo]
        · intro g hg
          have hcons := hf2 g hg
          simp only [bytesTo] at hcons ⊢
          rw [filter_cons_of_neg (by simpa using fun h => hg h.symm), hcons]

/-- If the loop is asked for more bytes than the message holds, it reads past its end. -/
theorem writeLoop_overread (env : Env Key R) (f : FName) (hw : ∀ k, ∃ n, env.write k = .ok n) :
    ∀ (fuel n : ℕ) (st : State R) (buf : List UInt8) (written : ℕ), n ≤ fuel → buf.length < n →
      writeLoop env f fuel n st buf written = .overread
  | 0, n, _, _, _, hf, hn => by omega
  | fuel + 1, n, st, buf, written, hf, hn => by
      obtain ⟨k, hk⟩ := hw st.clock
      rw [writeLoop, if_neg (by omega)]
      simp only [hk]
      by_cases hlen : buf.length < min n (max 1 k)
      · rw [if_pos hlen]
      · rw [if_neg hlen]
        exact writeLoop_overread env f hw fuel _ _ _ _ (by omega) (by rw [length_drop]; omega)

/-! ### How one message splits -/

/-- The number of bytes of a message of length `len` that the code sends to the signature file. -/
def sigShare (siglen written len : ℕ) : ℕ :=
  if written < siglen then (if siglen - written < len then siglen else len) else 0

/-- Bytes received so far and what went to the signature file and to the policy file. -/
structure Acc where
  written : ℕ
  sig : List UInt8
  pol : List UInt8

/-- One message as the code splits it; `none` if it reads past the end of the message. -/
def feed (siglen : ℕ) (a : Acc) (c : List UInt8) : Option Acc :=
  let s := sigShare siglen a.written c.length
  if c.length < s then none
  else some ⟨a.written + c.length, a.sig ++ c.take s, a.pol ++ c.drop s⟩

def feedAll (siglen : ℕ) : Acc → List (List UInt8) → Option Acc
  | a, [] => some a
  | a, c :: cs => (feed siglen a c).bind (fun a => feedAll siglen a cs)

/-- Some message starts behind the first signature byte, before its last one, and goes beyond it. -/
def Straddles (siglen : ℕ) (chunks : List (List UInt8)) : Prop :=
  ∃ pre c post, chunks = pre ++ c :: post ∧ 0 < pre.flatten.length ∧
    pre.flatten.length < siglen ∧ siglen < pre.flatten.length + c.length

/-- Invariant of a correct split: the received bytes `B` are cut at `siglen`. -/
def Good (siglen : ℕ) (B : List UInt8) (a : Acc) : Prop :=
  a.written = B.length ∧ a.sig = B.take siglen ∧ a.pol = B.drop siglen

variable {siglen : ℕ}

/-- A message that does not straddle the cut keeps the split correct. -/
theorem good_feed {B c : List UInt8} {a : Acc} (hg : Good siglen B a)
    (hs : ¬ (0 < B.length ∧ B.length < siglen ∧ siglen < B.length + c.length)) :
    ∃ a', feed siglen a c = some a' ∧ Good siglen (B ++ c) a' := by
  obtain ⟨hw, hsig, hpol⟩ := hg
  have hshare : sigShare siglen a.written c.length = min c.length (siglen - B.length) := by
    rw [sigShare, hw]
    by_cases h1 : B.length < siglen
    · rw [if_pos h1]
      by_cases h2 : siglen - B.length < c.length
      · rw [if_pos h2]; omega
      · rw [if_neg h2]; omega
    · rw [if_neg h1]; omega
  refine ⟨_, by rw [feed, hshare, if_neg (by omega)], ?_, ?_, ?_⟩
  · simp [hw]
  · simp only [hsig, take_append, append_cancel_left_eq]
    rw [Nat.min_comm, ← take_eq_take_min]
  · simp only [hpol, drop_append, append_cancel_left_eq]
    rw [Nat.min_comm, ← drop_eq_drop_min]

/-- A straddling message sends `siglen` more bytes to a signature file that is not empty. -/
theorem feed_straddle {B c : List UInt8} {a a' : Acc} (hg : Good siglen B a)
    (hs : 0 < B.length ∧ B.length < siglen ∧ siglen < B.length + c.length) (hf : feed siglen a c = some a') :
    siglen < a'.sig.length := by
  obtain ⟨hw, hsig, -⟩ := hg
  have hshare : sigShare siglen a.written c.length = siglen := by
    rw [sigShare, hw, if_pos hs.2.1, if_pos (by omega)]
  simp only [feed, hshare, Option.ite_none_left_eq_some, Option.some.injEq] at hf
  obtain ⟨hlen, rfl⟩ := hf
  simp only [hsig, length_append, length_take]
  omega

theorem feed_written {c : List UInt8} {a a' : Acc} (h : feed siglen a c = some a') :
    a'.written = a.written + c.length := by
  simp only [feed, Option.ite_none_left_eq_some, Option.some.injEq] at h
  rw [← h.2]

/-- The running count is the number of bytes received. -/
theorem feedAll_written : ∀ {cs : List (List UInt8)} {a a' : Acc},
    feedAll siglen a cs = some a' → a'.written = a.written + cs.flatten.length
  | [], a, a', h => by
      simp only [feedAll, Option.some.injEq] at h
      simp [h]
  | c :: cs, a, a', h => by
      simp only [feedAll, Option.bind_eq_some_iff] at h
      obtain ⟨b, hb, hrest⟩ := h
      rw [feedAll_written hrest, feed_written hb, flatten_cons, length_append,
        add_assoc]

/-- The signature file only grows. -/
theorem feedAll_sig_le : ∀ {cs : List (List UInt8)} {a a' : Acc},
    feedAll siglen a cs = some a' → a.sig.length ≤ a'.sig.length
  | [], a, a', h => by
      simp only [feedAll, Option.some.injEq] at h
      exact h ▸ Nat.le_refl _
  | c :: cs, a, a', h => by
      simp only [feedAll, Option.bind_eq_some_iff] at h
      obtain ⟨b, hb, hrest⟩ := h
      refine Nat.le_trans ?_ (feedAll_sig_le hrest)
      simp only [feed, Option.ite_none_left_eq_some, Option.some.injEq] at hb
      rw [← hb.2]
      simp

/-- Folding the messages: the split of the whole stream is correct iff no message straddles. -/
theorem feedAll_good_iff : ∀ (cs : List (List UInt8)) (B : List UInt8) (a : Acc),
    Good siglen B a →
    ((∃ a', feedAll siglen a cs = some a' ∧ Good siglen (B ++ cs.flatten) a') ↔
      ¬ ∃ pre c post, cs = pre ++ c :: post ∧ 0 < B.length + pre.flatten.length ∧
        B.length + pre.flatten.length < siglen ∧
        siglen < B.length + pre.flatten.length + c.length)
  | [], B, a, hg => by simp [feedAll, hg]
  | c :: cs, B, a, hg => by
      by_cases hs : 0 < B.length ∧ B.length < siglen ∧ siglen < B.length + c.length
      · -- the straddling message makes the signature file too long for good
        refine iff_of_false ?_ (not_not_intro ⟨[], c, cs, rfl, by simpa using hs⟩)
        rintro ⟨a', hf, hg'⟩
        simp only [feedAll, Option.bind_eq_some_iff] at hf
        obtain ⟨b, hb, hrest⟩ := hf
        have hlong := feed_straddle hg hs hb
        have hle := feedAll_sig_le hrest
        rw [hg'.2.1, length_take] at hle
        omega
      · obtain ⟨b, hb, hgb⟩ := good_feed hg hs
        have ih := feedAll_good_iff cs (B ++ c) b hgb
        simp only [feedAll, hb, Option.bind_some, flatten_cons]
        rw [← append_assoc, ih]
        refine not_congr ⟨?_, ?_⟩
        · rintro ⟨pre, d, post, rfl, h⟩
          exact ⟨c :: pre, d, post, rfl, by simpa [add_assoc] using h⟩
        · rintro ⟨pre, d, post, heq, h⟩
          cases pre with
          | nil =>
            simp only [nil_append, List.cons.injEq] at heq
            obtain ⟨rfl, rfl⟩ := heq
            exact absurd (by simpa using h) hs
          | cons e pre =>
            simp only [cons_append, List.cons.injEq] at heq
            obtain ⟨rfl, rfl⟩ := heq
            exact ⟨pre, d, post, rfl, by simpa [add_assoc] using h⟩

theorem not_straddles_iff (siglen : ℕ) (cs : List (List UInt8)) :
    (∃ a, feedAll siglen ⟨0, [], []⟩ cs = some a ∧ Good siglen cs.flatten a) ↔ ¬ Straddles siglen cs := by
  simpa [Straddles] using feedAll_good_iff cs [] ⟨0, [], []⟩ ⟨rfl, by simp, by simp⟩

/-! ### From the dispatcher to the split -/

@[simp] theorem writes_unlinkOpt (f : Option FName) : (unlinkOpt st f).writes = st.writes := by
  cases f <;> rfl

@[simp] theorem writes_pePolicyRequestPut (req : Req) : (pePolicyRequestPut st req).writes = st.writes := by
  simp [pePolicyRequestPut]

/-- Replies never write to a file. -/
theorem reply_writes (req : Option Req) (token error : ℕ) :
    ∃ r st', reply st req token error = .ret r st' ∧ st'.writes = st.writes := by
  cases req with
  | none => exact ⟨_, _, rfl, rfl⟩
  | some r => exact ⟨_, _, rfl, writes_pePolicyRequestPut st r⟩

/-- Verification and installation never write to a file. -/
theorem finish_writes (env : Env Key R) (st : State R) (req : Req) (key0 : Option Key) :
    ∃ r st', finish env st req key0 = .ret r st' ∧ st'.writes = st.writes := by
  simp only [finish]
  repeat' split
  all_goals exact reply_writes _ _ _ _

/-- What the data messages of one upload need: no failing write and room below the configured
    policy size. -/
structure Ready (env : Env Key R) (total : ℕ) : Prop where
  write : ∀ k, ∃ n, env.write k = .ok n
  room : env.policysize = 0 ∨ total ≤ env.policysize

/-- One message of data: either it is read past its end, exactly when the split says so, or the two
    files receive what the split says, and the request stays open unless this was the END message. -/
theorem setData_feed {env : Env Key R} {total : ℕ} {a : Acc} (req : Req)
    (p : PolRequest) (key0 : Option Key) (buf : List UInt8)
    (hr : Ready env total) (ha : req.authUid = p.authUid)
    (htot : req.written + buf.length ≤ total) (hw : a.written = req.written)
    (hsig : bytesTo (.tmpSig req.uid req.prio req.token) st.writes = a.sig)
    (hpol : bytesTo (.tmp req.uid req.prio req.token) st.writes = a.pol) :
    match feed req.siglen a buf with
    | none => setData env st req p key0 buf = .undef
    | some a' => ∃ r st', setData env st req p key0 buf = .ret r st' ∧
        bytesTo (.tmpSig req.uid req.prio req.token) st'.writes = a'.sig ∧
        bytesTo (.tmp req.uid req.prio req.token) st'.writes = a'.pol ∧
        (p.fin = false → st'.preqs = st.preqs.map
          (fun q => if q.token = req.token then { req with written := a'.written } else q)) := by
  have hroom : ¬ (0 < env.policysize ∧ env.policysize < req.written + buf.length) := by
    rcases hr.room with h | h <;> omega
  have hshare : (if req.written < req.siglen then
      (if req.siglen - req.written < buf.length then req.siglen else buf.length) else 0) =
      sigShare req.siglen a.written buf.length := by rw [sigShare, hw]
  simp only [setData, if_neg hroom, if_neg (not_not_intro ha), hshare, feed]
  generalize sigShare req.siglen a.written buf.length = s
  by_cases hs : buf.length < s
  · rw [if_pos hs, writeLoop_overread env _ hr.write s s st buf req.written (Nat.le_refl _) hs]
  · rw [if_neg hs]
    obtain ⟨st₁, h₁, hq₁, w₁, hw₁, hb₁, ho₁⟩ := writeLoop_done env
      (.tmpSig req.uid req.prio req.token) hr.write s s st buf req.written (Nat.le_refl _) (by omega)
    obtain ⟨st₂, h₂, hq₂, w₂, hw₂, hb₂, ho₂⟩ := writeLoop_done env
      (.tmp req.uid req.prio req.token) hr.write (buf.drop s).length (buf.drop s).length st₁
      (buf.drop s) (req.written + s) (Nat.le_refl _) (Nat.le_refl _)
    have hcount : req.written + s + (buf.drop s).length = a.written + buf.length := by
      rw [length_drop, hw]; omega
    have hsig₂ : bytesTo (.tmpSig req.uid req.prio req.token) st₂.writes = a.sig ++ buf.take s := by
      rw [hw₂, hw₁, bytesTo_append, bytesTo_append, hsig, hb₁, ho₂ _ (by simp), append_nil]
    have hpol₂ : bytesTo (.tmp req.uid req.prio req.token) st₂.writes = a.pol ++ buf.drop s := by
      rw [hw₂, hw₁, bytesTo_append, bytesTo_append, hpol, ho₁ _ (by simp), hb₂, append_nil, take_length]
    simp only [h₁, h₂]
    cases hfin : p.fin with
    | false =>
      refine ⟨_, _, rfl, hsig₂, hpol₂, fun _ => ?_⟩
      simp only [State.setReq, hq₂, hq₁, hcount]
    | true =>
      obtain ⟨r, st', hres, hwr⟩ := finish_writes env
        (st₂.setReq { req with written := req.written + s + (buf.drop s).length })
        { req with written := req.written + s + (buf.drop s).length } key0
      refine ⟨r, st', by rw [if_pos rfl]; exact hres, ?_, ?_, by simp⟩
      · rw [hwr]; exact hsig₂
      · rw [hwr]; exact hpol₂

/-- The open request `req` is the only one under its token. -/
def Unique (st : State R) (req : Req) : Prop :=
  ∃ pre post, st.preqs = pre ++ req :: post ∧ (∀ q ∈ pre, q.token ≠ req.token) ∧
    ∀ q ∈ post, q.token ≠ req.token

theorem Unique.find {st : State R} {req : Req} (h : Unique st req) : pePolicyRequestFind st req.token = some req := by
  obtain ⟨pre, post, heq, hpre, -⟩ := h
  rw [pePolicyRequestFind, heq, find?_append, find?_eq_none.mpr (by simpa using hpre)]
  simp

theorem Unique.update {st st' : State R} {req req' : Req} (h : Unique st req) (ht : req'.token = req.token)
    (hq : st'.preqs = st.preqs.map (fun q => if q.token = req.token then req' else q)) : Unique st' req' := by
  obtain ⟨pre, post, heq, hpre, hpost⟩ := h
  refine ⟨pre, post, ?_, by simpa [ht] using hpre, by simpa [ht] using hpost⟩
  have hid : ∀ l : List Req, (∀ q ∈ l, q.token ≠ req.token) →
      l.map (fun q => if q.token = req.token then req' else q) = l := by
    intro l hl
    rw [map_congr_left (g := id) (by intro q hm; simp [hl q hm]), map_id]
  rw [hq, heq, map_append, map_cons, hid pre hpre, hid post hpost, if_pos rfl]

/-- Folding the continuation messages of an open request follows the split. -/
theorem run_conts {env : Env Key R} {token authUid total : ℕ} (hr : Ready env total) :
    ∀ (cs : List (List UInt8)) (st : State R) (req : Req) (a : Acc),
      Unique st req → req.token = token → req.authUid = authUid → req.ptype = ptypeSetByUid →
      req.written + cs.flatten.length ≤ total → a.written = req.written →
      bytesTo (.tmpSig req.uid req.prio token) st.writes = a.sig →
      bytesTo (.tmp req.uid req.prio token) st.writes = a.pol →
      match feedAll req.siglen a cs with
      | none => run env st (conts token authUid cs) = none
      | some a' => ∃ st', run env st (conts token authUid cs) = some st' ∧
          bytesTo (.tmpSig req.uid req.prio token) st'.writes = a'.sig ∧
          bytesTo (.tmp req.uid req.prio token) st'.writes = a'.pol
  | [], st, req, a, _, _, _, _, _, _, hsig, hpol => ⟨st, rfl, hsig, hpol⟩
  | c :: cs, st, req, a, hu, ht, hauth, hpt, htot, hw, hsig, hpol => by
      subst ht hauth
      rw [flatten_cons, length_append] at htot
      have hdisp : peDispatchPolicy env st (.request ⟨req.token, req.authUid, false, cs.isEmpty, c⟩)
          = setData env st req ⟨req.token, req.authUid, false, cs.isEmpty, c⟩ none c := by
        simp [peDispatchPolicy, hu.find, hpt, ptypeGetByUid, ptypeSetByUid]
      have hstep := setData_feed st req ⟨req.token, req.authUid, false, cs.isEmpty, c⟩ none c hr rfl
        (by omega) hw hsig hpol
      simp only [feedAll, conts, run, hdisp]
      cases hf : feed req.siglen a c with
      | none =>
        rw [hf] at hstep
        simp only [Option.bind_none, hstep]
      | some b =>
        rw [hf] at hstep
        obtain ⟨r, st', hres, hs', hp', hkeep⟩ := hstep
        simp only [Option.bind_some, hres]
        cases hcs : cs with
        | nil => exact ⟨st', rfl, hs', hp'⟩
        | cons d ds =>
          rw [← hcs]
          have hb : b.written = req.written + c.length := by rw [feed_written hf, hw]
          exact run_conts hr cs st' { req with written := b.written } b
            (hu.update rfl (hkeep (by simp [hcs]))) rfl rfl hpt (by simp only [hb]; omega) rfl hs' hp'

/-! ### The START message -/

theorem be32_append (hdr c : List UInt8) (off : ℕ) (h : off + 4 ≤ hdr.length) :
    be32 (hdr ++ c) off = be32 hdr off := by
  rw [be32, be32, drop_append_of_le_length (by omega), take_append_of_le_length (by rw [length_drop]; omega)]

theorem be16_append (hdr c : List UInt8) (off : ℕ) (h : off + 2 ≤ hdr.length) :
    be16 (hdr ++ c) off = be16 hdr off := by
  rw [be16, be16, drop_append_of_le_length (by omega), take_append_of_le_length (by rw [length_drop]; omega)]

/-- An upload of `total` bytes that the code is willing to take: a fresh token, a well-formed
    `Policy_SetByUid` header, the required permission, a signature if a certificate is registered,
    temporary files that can be created and writes that do not fail. The trace starts here. -/
structure Opens (env : Env Key R) (st : State R) (token authUid : ℕ) (hdr : List UInt8)
    (total : ℕ) : Prop where
  fresh : ∀ q ∈ st.preqs, q.token ≠ token
  len : hdr.length = sizeSetByUid
  ptype : be32 hdr 0 = ptypeSetByUid
  prio : be32 hdr 8 < prioMax
  auth : authUid = 0 ∨ be32 hdr 4 = authUid ∧ be32 hdr 8 ≠ prioAdmin
  key : env.cert (be32 hdr 4) (be32 hdr 8) = none ∨ 0 < be16 hdr 12
  opened : ∀ k, env.openErr k = none
  noTmp : st.files (.tmp (be32 hdr 4) (be32 hdr 8) token) = none
  noTmpSig : st.files (.tmpSig (be32 hdr 4) (be32 hdr 8) token) = none
  trace : st.writes = []
  ready : Ready env total

/-- The request object after a successful START branch. -/
def opened (token authUid : ℕ) (hdr : List UInt8) : Req :=
  { token := token
    ptype := ptypeSetByUid
    authUid := authUid
    fd := some (.tmp (be32 hdr 4) (be32 hdr 8) token)
    fdsig := if 0 < be16 hdr 12 then some (.tmpSig (be32 hdr 4) (be32 hdr 8) token) else none
    prio := be32 hdr 8
    uid := be32 hdr 4
    written := 0
    siglen := be16 hdr 12
    tmpname := some (.tmp (be32 hdr 4) (be32 hdr 8) token)
    tmpsig := if 0 < be16 hdr 12 then some (.tmpSig (be32 hdr 4) (be32 hdr 8) token) else none }

theorem openExcl_ok (env : Env Key R) (st : State R) (f : FName) (h : env.openErr st.clock = none)
    (hf : st.files f = none) : openExcl env st f = (.ok (st.tick.put f (some [])), st.tick) := by
  simp [openExcl, h, hf]

/-- The START branch leaves the request open and hands the rest of the message to the data part. -/
theorem dispatch_start {env : Env Key R} {st : State R} {token authUid total : ℕ}
    {hdr : List UInt8} (h : Opens env st token authUid hdr total) (fin : Bool) (c : List UInt8) :
    ∃ st' key, peDispatchPolicy env st (.request ⟨token, authUid, true, fin, hdr ++ c⟩) =
        setData env st' (opened token authUid hdr) ⟨token, authUid, true, fin, hdr ++ c⟩ key c ∧
      Unique st' (opened token authUid hdr) ∧ st'.writes = [] := by
  have hlen := h.len
  simp only [sizeSetByUid] at hlen
  have hfind : pePolicyRequestFind st token = none := by
    rw [pePolicyRequestFind, find?_eq_none]
    simpa using h.fresh
  have hb0 := be32_append hdr c 0 (by omega)
  have hb4 := be32_append hdr c 4 (by omega)
  have hb8 := be32_append hdr c 8 (by omega)
  have hb12 := be16_append hdr c 12 (by omega)
  have hperm : ¬ (be32 hdr 4 ≠ authUid ∧ authUid ≠ 0) := by
    rcases h.auth with h | h <;> simp [h]
  have hadm : ¬ (be32 hdr 8 = prioAdmin ∧ authUid ≠ 0) := by
    rcases h.auth with h | h <;> simp [h]
  have hkey : ¬ ((env.cert (be32 hdr 4) (be32 hdr 8)).isSome = true ∧ be16 hdr 12 = 0) := by
    rcases h.key with h | h
    · simp [h]
    · omega
  have hdrop : (hdr ++ c).drop sizeSetByUid = c := by
    rw [← h.len, drop_left]
  simp only [peDispatchPolicy, hfind, hb0, h.ptype, setStart, hb4, hb8, hb12, hdrop]
  rw [if_neg (by simp), if_neg (by simp [sizeGeneric, hlen]; omega), if_neg (by decide),
    if_pos trivial, if_neg (by simp [sizeSetByUid, hlen]), if_neg (Nat.not_le.mpr h.prio),
    if_neg hperm, if_neg hadm, if_neg hkey]
  have huniq : ∀ (st' : State R) (r : Req), r.token = token →
      st'.preqs = r :: st.preqs → Unique (st'.setReq (opened token authUid hdr))
        (opened token authUid hdr) := by
    intro st' r ht hq
    have hr : Unique st' r := ⟨[], st.preqs, hq, by simp, by rw [ht]; exact h.fresh⟩
    exact hr.update ht.symm (by rw [ht]; rfl)
  by_cases hs : 0 < be16 hdr 12
  · simp only [if_pos hs]
    rw [openExcl_ok env _ _ (h.opened _) (by exact h.noTmpSig)]
    simp only
    rw [openExcl_ok env _ _ (h.opened _) (by simpa [State.put, State.tick] using h.noTmp)]
    simp only
    simp only [opened, if_pos hs] at huniq ⊢
    exact ⟨_, _, rfl, huniq _ _ rfl rfl, h.trace⟩
  · simp only [if_neg hs]
    rw [openExcl_ok env _ _ (h.opened _) (by exact h.noTmp)]
    simp only
    simp only [opened, if_neg hs] at huniq ⊢
    exact ⟨_, _, rfl, huniq _ _ rfl rfl, h.trace⟩

/-! ### The split of an upload -/

/-- The signature file receives the first `siglen` bytes of the stream, the policy file the rest,
    and no message is read past its end. -/
def SplitCorrect (env : Env Key R) (st : State R) (token authUid : ℕ) (hdr c : List UInt8)
    (cs : List (List UInt8)) : Prop :=
  ∃ st', run env st (upload token authUid hdr c cs) = some st' ∧
    bytesTo (.tmpSig (be32 hdr 4) (be32 hdr 8) token) st'.writes =
      (c :: cs).flatten.take (be16 hdr 12) ∧
    bytesTo (.tmp (be32 hdr 4) (be32 hdr 8) token) st'.writes =
      (c :: cs).flatten.drop (be16 hdr 12)

/-- An upload, as a run of the dispatcher, is the fold of the split. -/
theorem run_upload {env : Env Key R} {st : State R} {token authUid : ℕ} {hdr c : List UInt8}
    {cs : List (List UInt8)} (h : Opens env st token authUid hdr (c :: cs).flatten.length) :
    match feedAll (be16 hdr 12) ⟨0, [], []⟩ (c :: cs) with
    | none => run env st (upload token authUid hdr c cs) = none
    | some a => ∃ st', run env st (upload token authUid hdr c cs) = some st' ∧
        bytesTo (.tmpSig (be32 hdr 4) (be32 hdr 8) token) st'.writes = a.sig ∧
        bytesTo (.tmp (be32 hdr 4) (be32 hdr 8) token) st'.writes = a.pol := by
  obtain ⟨st₀, key, hdisp, hu, htr⟩ := dispatch_start h cs.isEmpty c
  have htot : c.length + cs.flatten.length = (c :: cs).flatten.length := by simp
  have hstep := setData_feed (a := ⟨0, [], []⟩) st₀ (opened token authUid hdr)
    ⟨token, authUid, true, cs.isEmpty, hdr ++ c⟩ key c h.ready rfl (by simp only [opened]; omega) rfl
    (by simp [htr]) (by simp [htr])
  simp only [feedAll, upload, run, hdisp]
  have hsl : (opened token authUid hdr).siglen = be16 hdr 12 := rfl
  rw [hsl] at hstep
  cases hf : feed (be16 hdr 12) ⟨0, [], []⟩ c with
  | none =>
    rw [hf] at hstep
    simp only [Option.bind_none, hstep]
  | some b =>
    rw [hf] at hstep
    obtain ⟨r, st', hres, hs', hp', hkeep⟩ := hstep
    simp only [Option.bind_some, hres]
    cases hcs : cs with
    | nil => exact ⟨st', rfl, hs', hp'⟩
    | cons d ds =>
      rw [← hcs]
      have hb : b.written = c.length := by rw [feed_written hf, zero_add]
      exact run_conts h.ready cs st' { opened token authUid hdr with written := b.written } b
        (hu.update rfl (hkeep (by simp [hcs]))) rfl rfl rfl (by simp only [hb]; omega) rfl hs' hp'

/-- An upload is split at `siglen` if and only if no message that begins strictly inside the
    signature reaches beyond it. -/
theorem upload_split_iff {env : Env Key R} {st : State R} {token authUid : ℕ} {hdr c : List UInt8}
    {cs : List (List UInt8)} (h : Opens env st token authUid hdr (c :: cs).flatten.length) :
    SplitCorrect env st token authUid hdr c cs ↔ ¬ Straddles (be16 hdr 12) (c :: cs) := by
  rw [← not_straddles_iff]
  have hrun := run_upload h
  constructor
  · rintro ⟨st', hr, hsig, hpol⟩
    cases hf : feedAll (be16 hdr 12) ⟨0, [], []⟩ (c :: cs) with
    | none =>
      rw [hf] at hrun
      rw [hrun] at hr
      exact absurd hr (by simp)
    | some a =>
      rw [hf] at hrun
      obtain ⟨st'', hr', hsig', hpol'⟩ := hrun
      obtain rfl : st' = st'' := Option.some.inj (hr.symm.trans hr')
      exact ⟨a, rfl, by simp [feedAll_written hf], hsig'.symm.trans hsig, hpol'.symm.trans hpol⟩
  · rintro ⟨a, hf, -, hsig, hpol⟩
    rw [hf] at hrun
    obtain ⟨st', hr, hs', hp'⟩ := hrun
    exact ⟨st', hr, hs'.trans hsig, hp'.trans hpol⟩

/-! ### Two uploads

    User 1000 uploads six bytes with a signature of length four, one byte per `write`. -/

def demoEnv : Env Unit Unit :=
  { policysize := 0
    cert := fun _ _ => none
    verify := fun _ _ _ => true
    parse := fun _ _ => some ()
    policyGet := fun _ _ => .error enoent
    openErr := fun _ => none
    write := fun _ => .ok 1
    fsyncErr := fun _ => none
    renameErr := fun _ => none }

def demoState : State Unit :=
  { preqs := [], files := fun _ => none, pdb := fun _ _ => none, writes := [], clock := 0 }

/-- ANOUBIS_PTYPE_SETBYUID, uid 1000, prio 1, siglen 4. -/
def demoHdr : List UInt8 := [0, 0, 1, 1, 0, 0, 3, 232, 0, 0, 0, 1, 0, 4]

theorem demo_opens : Opens demoEnv demoState 7 1000 demoHdr 6 where
  fresh := by simp [demoState]
  len := rfl
  ptype := rfl
  prio := by decide
  auth := .inr (by decide)
  key := .inl rfl
  opened := fun _ => rfl
  noTmp := rfl
  noTmpSig := rfl
  trace := rfl
  ready := ⟨fun _ => ⟨1, rfl⟩, .inl rfl⟩

/-- A message boundary exactly behind the signature is split correctly. -/
theorem upload_split_aligned :
    SplitCorrect demoEnv demoState 7 1000 demoHdr [1, 2, 3] [[4], [5, 6]] := by
  refine (upload_split_iff demo_opens).mpr ((not_straddles_iff _ _).mp ?_)
  have hsig : be16 demoHdr 12 = 4 := rfl
  rw [hsig]
  exact ⟨⟨6, [1, 2, 3, 4], [5, 6]⟩, rfl, rfl, rfl, rfl⟩

/-- With a boundary inside the signature, all four bytes of the second message go to the signature
    file. -/
theorem upload_split_straddling :
    Opens demoEnv demoState 7 1000 demoHdr [[1, 2], [3, 4, 5, 6]].flatten.length ∧
      ¬ SplitCorrect demoEnv demoState 7 1000 demoHdr [1, 2] [[3, 4, 5, 6]] := by
  refine ⟨demo_opens, ?_⟩
  rintro ⟨st', hrun, hsig, -⟩
  have hall : (run demoEnv demoState (upload 7 1000 demoHdr [1, 2] [[3, 4, 5, 6]])).map
      (fun st => bytesTo (.tmpSig 1000 1 7) st.writes) = some [1, 2, 3, 4, 5, 6] := rfl
  rw [hrun, Option.map_some, Option.some.injEq] at hall
  exact absurd (hall.symm.trans hsig) (by decide)

end Anoubis.Pe.Upload

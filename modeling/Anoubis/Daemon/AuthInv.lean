import Anoubis.Daemon.AuthTable
import Anoubis.Proto.Effects

/-! What the log says about an authentication.

    The events of one attempt follow each other in the log, and every message on its way carries those it
    rests on:

        connect, attempt, request                          AUTH_REQUEST    (`asking`)
        connect, attempt, request, answer                  AUTH_CHALLENGE  (`challenging`)
        connect, …, answer, verify                         AUTH_VERIFY     (`signing`)
        connect, …, answer, verify, verified               AUTH_RESULT     (`verifying`)

    An answer reaches an attempt through the token of a request, and no two requests have the same one. -/

namespace Anoubis.Daemon.Auth

open Anoubis.Lib Anoubis.Proto Anoubis.Connection List

variable {K : Type}

/-! ### Reading the log -/

/-- The token of a request to the master. -/
def Event.asks : Event K → Option ℕ
  | .request _ _ token _ => some token
  | .verify _ _ token _ _ _ _ => some token
  | _ => none

/-- The connection whose attempts or results change. -/
def Event.about : Event K → Option ℕ
  | .connect id _ => some id
  | .attempt id _ => some id
  | .finish id _ _ _ _ => some id
  | _ => none

/-- The error with which an attempt of this connection ends. -/
def Event.result (id : ℕ) : Event K → Option ℕ
  | .finish id' _ error _ _ => if id' = id then some error else none
  | _ => none

/-- The finish callback of the object was called. -/
def Finished (log : List (Event K)) (id obj : ℕ) : Prop := ∃ error ok uid, .finish id obj error ok uid ∈ log

/-- The attempt is the one that is not over. -/
structure Current (log : List (Event K)) (id obj : ℕ) : Prop where
  started : .attempt id obj ∈ log
  pending : ¬ Finished log id obj
  only : ∀ obj', .attempt id obj' ∈ log → obj' = obj ∨ Finished log id obj'

/-- No other request to the master has the token of this one. -/
def Own (log : List (Event K)) (x : Event K) : Prop := ∀ x' ∈ log, x'.asks = x.asks → x' = x

section Events

variable (id obj uid : ℕ) (mode : AuthMode) (cert : Option (Cert K)) (c : Challenge) (token : ℕ) (iv sig : Bytes)

/-- A client asks for authentication. -/
def asking : List (Event K) := [.connect id uid, .attempt id obj, .request id obj token uid]

/-- The master answers. -/
def challenging : List (Event K) := asking id obj uid c.token ++ [.answer c.token uid mode cert c]

/-- The client sends a signature of the challenge. -/
def signing : List (Event K) :=
  challenging id obj uid mode cert c ++ [.verify id obj token uid iv c.challenge sig]

/-- The master checks it. -/
def verifying (cert' : Option (Cert K)) (ok : Bool) : List (Event K) :=
  signing id obj uid mode cert c token iv sig ++ [.verified token uid (iv ++ c.challenge) sig cert' ok]

end Events

/-- A challenge for a user. -/
structure Challenge.For (c : Challenge) (uid : ℕ) : Prop where
  authUid : c.authUid = uid
  error : c.error = 0
  challenge : c.challenge ≠ []

/-- An answer that lets a user pass, and what the master has found. -/
structure Challenge.Free (c : Challenge) (uid : ℕ) (mode : AuthMode) (cert : Option (Cert K)) : Prop where
  authUid : c.authUid = uid
  error : c.error = 0
  challenge : c.challenge = []
  keyid : c.keyid = []
  mode : mode = .off ∨ mode = .optional ∧ cert = none

/-- Why an attempt may succeed. -/
inductive Granted (sigOk : K → Bytes → Bytes → Bool) (log : List (Event K)) (id obj uid : ℕ) : Prop where
  /-- The master has let it pass. -/
  | passed {mode : AuthMode} {cert : Option (Cert K)} {c : Challenge}
    (events : (challenging id obj uid mode cert c).Sublist log)
    (own : Own log (.request id obj c.token uid)) (free : c.Free uid mode cert)
  /-- The master has sent a challenge and verified its signature. -/
  | signed {mode : AuthMode} {cert : Option (Cert K)} {c : Challenge} {token : ℕ} {iv sig : Bytes}
    {cert' : Cert K} {key : K}
    (events : (verifying id obj uid mode cert c token iv sig (some cert') true).Sublist log)
    (own : Own log (.request id obj c.token uid)) (own' : Own log (.verify id obj token uid iv c.challenge sig))
    (challenge : c.For uid) (pubkey : cert'.pubkey = some key) (sig : sigOk key (iv ++ c.challenge) sig = true)

/-- What an event needs; `p` says whether objects are let alone when they are gone. -/
def Fine (sigOk : K → Bytes → Bytes → Bool) (p : Prop) (pre : List (Event K)) : Event K → Prop
  | .attempt id obj => ∀ obj', .attempt id obj' ∈ pre → obj' ≠ obj ∧ Finished pre id obj'
  | .touch id obj => p → ¬ Finished pre id obj
  | .challenge id obj => p → ¬ Finished pre id obj
  | .finish id obj error ok uid =>
    Current pre id obj ∧ (ok = true ↔ error = 0) ∧ (ok = true → Granted sigOk pre id obj uid)
  | _ => True

/-! ### Messages -/

def ToMaster.token : ToMaster → ℕ
  | .request token _ => token
  | .verify token _ _ _ => token

def ToSession.token : ToSession → ℕ
  | .challenge c => c.token
  | .result token _ _ => token

/-- What a message to the master rests on. -/
def Backed (log : List (Event K)) : ToMaster → Prop
  | .request token uid => ∃ id obj, (asking id obj uid token).Sublist log
  | .verify token uid data sig => ∃ id obj mode cert c iv,
    (signing id obj uid mode cert c token iv sig).Sublist log ∧ c.For uid ∧ data = iv ++ c.challenge

/-- What a message of the master rests on. -/
def Replied (sigOk : K → Bytes → Bytes → Bool) (log : List (Event K)) : ToSession → Prop
  | .challenge c => ∃ id obj mode cert, (challenging id obj c.authUid mode cert c).Sublist log ∧
    (c.error = 0 → c.Free c.authUid mode cert ∨ c.For c.authUid)
  | .result token uid error => ∃ id obj mode cert c iv sig cert' ok,
    (verifying id obj uid mode cert c token iv sig cert' ok).Sublist log ∧ c.For uid ∧
      (error = 0 → ok = true ∧ ∃ c' key, cert' = some c' ∧ c'.pubkey = some key ∧
        sigOk key (iv ++ c.challenge) sig = true)

/-! ### Connections -/

/-- What is true of a connection at any time. -/
structure Held (log : List (Event K)) (id : ℕ) (conn : Conn) : Prop where
  connected : .connect id conn.euid ∈ log
  wired : Wired conn.server
  flag : conn.server.flagAuth = true ↔ ∃ obj error uid, .finish id obj error true uid ∈ log
  uid : conn.server.flagAuth = true → conn.server.authUid = conn.euid
  replies : replies conn.server = log.filterMap (Event.result id)
  attempts : ∀ obj, .attempt id obj ∈ log →
    Finished log id obj ∨ (conn.server.auth.isSome = true ∧ obj = conn.obj)
  auth : conn.server.auth.isSome = true → conn.server.flagAuth = false ∧
    [.connect id conn.euid, .attempt id conn.obj].Sublist log ∧ ¬ Finished log id conn.obj

/-- How far its attempt is. The answers count only as long as the channel is open. -/
inductive Stage (log : List (Event K)) (comm : PolicyComm.Comm) (id : ℕ) (conn : Conn) (a : Auth Challenge) :
    Prop where
  | init (state : a.state = .init) (unsaved : a.authPrivate = none)
  /-- It waits for AUTH_CHALLENGE. -/
  | waiting (state : a.state = .inprogress) (unsaved : a.authPrivate = none)
    (waits : conn.server.chan = true →
      ∃ t, Waits comm 0 id t ∧ .request id conn.obj t conn.euid ∈ log)
  /-- It waits for the client. -/
  | challenged {mode : AuthMode} {cert : Option (Cert K)} {c : Challenge} (state : a.state = .inprogress)
    (saved : a.authPrivate = some c) (events : (challenging id conn.obj conn.euid mode cert c).Sublist log)
    (challenge : c.For conn.euid) (idle : ∀ f t, ¬ Waits comm f id t)
  /-- It waits for AUTH_RESULT. -/
  | verifying (state : a.state = .inprogress) (unsaved : a.authPrivate = none)
    (waits : conn.server.chan = true →
      ∃ t iv c sig, Waits comm 1 id t ∧ .verify id conn.obj t conn.euid iv c sig ∈ log)

/-- A connection between two messages. -/
structure Sound (log : List (Event K)) (comm : PolicyComm.Comm) (id : ℕ) (conn : Conn) : Prop where
  held : Held log id conn
  stage : ∀ a, conn.server.auth = some a → Stage log comm id conn a

/-! ### The system -/

/-- The log and the counters. It goes on from `past`. -/
structure Book (sigOk : K → Bytes → Bytes → Bool) (p : Prop) (past log : List (Event K))
    (nexttoken nextObj nextConn : ℕ) : Prop where
  grown : past <+: log
  tokens : ∀ x ∈ log, ∀ t, x.asks = some t → t ≤ nexttoken
  own : ∀ x ∈ log, x.asks.isSome = true → Own log x
  ids : ∀ x ∈ log, ∀ id, x.about = some id → id < nextConn
  euid : ∀ id uid uid', .connect id uid ∈ log → .connect id uid' ∈ log → uid = uid'
  objs : ∀ id obj, .attempt id obj ∈ log → obj < nextObj
  ordered : AtEach (Fine sigOk p) log

/-- The invariant; the connection `k` is being worked on. -/
structure Inv (sigOk : K → Bytes → Bytes → Bool) (p : Prop) (past : List (Event K)) (k : Option ℕ)
    (y : Sys K) : Prop where
  book : Book sigOk p past y.log y.comm.nexttoken y.nextObj y.nextConn
  homed : Homed y.comm
  opened : ∀ f id t, Waits y.comm f id t → ∃ conn, y.conns id = some conn ∧ conn.server.chan = true
  flight : ∀ f id t, Waits y.comm f id t → (∃ m ∈ y.s2m, m.token = t) ∨ ∃ m ∈ y.m2s, m.token = t
  fresh : ∀ id, y.nextConn ≤ id → y.conns id = none
  gone : ∀ id, id < y.nextConn → y.conns id = none → .disconnect id ∈ y.log
  sent : ∀ m ∈ y.s2m, Backed y.log m
  back : ∀ m ∈ y.m2s, Replied sigOk y.log m
  conns : ∀ id conn, y.conns id = some conn → k ≠ some id → Sound y.log y.comm id conn

variable {sigOk : K → Bytes → Bytes → Bool} {p : Prop} {past : List (Event K)} {k : Option ℕ} {y : Sys K}

/-! ### One more event -/

variable {log : List (Event K)} {x : Event K} {nexttoken nextObj : ℕ}

theorem finished_concat {id obj : ℕ} (h : Finished log id obj) (x : Event K) : Finished (log ++ [x]) id obj := by
  obtain ⟨error, ok, uid, hm⟩ := h
  exact ⟨error, ok, uid, mem_append_left _ hm⟩

theorem finished_of_concat {id obj : ℕ} (h : Finished (log ++ [x]) id obj) (hx : x.about ≠ some id) :
    Finished log id obj := by
  obtain ⟨error, ok, uid, hm⟩ := h
  rcases mem_append.mp hm with hm | hm
  · exact ⟨error, ok, uid, hm⟩
  · rw [← mem_singleton.mp hm] at hx
    exact absurd rfl hx

theorem sublist_concat {l : List (Event K)} (h : l.Sublist log) (x : Event K) : l.Sublist (log ++ [x]) :=
  h.trans (sublist_append_left log [x])

/-- An event about this connection is a new one. -/
theorem mem_of_mem_concat {x' : Event K} {id : ℕ} (h : x' ∈ log ++ [x]) (hx' : x'.about = some id)
    (hx : x.about ≠ some id) : x' ∈ log := by
  rcases mem_append.mp h with h | h
  · exact h
  · rw [← mem_singleton.mp h] at hx
    exact absurd hx' hx

variable {conn : Conn} {comm : PolicyComm.Comm} {nextConn : ℕ}

theorem held_concat {id : ℕ} (h : Held log id conn) (hx : x.about ≠ some id) :
    Held (log ++ [x]) id conn where
  connected := mem_append_left _ h.connected
  wired := h.wired
  flag := by
    rw [h.flag]
    constructor
    · rintro ⟨obj, error, uid, hm⟩
      exact ⟨obj, error, uid, mem_append_left _ hm⟩
    · rintro ⟨obj, error, uid, hm⟩
      exact ⟨obj, error, uid, mem_of_mem_concat hm rfl hx⟩
  uid := h.uid
  replies := by
    have hnone : x.result id = none := by
      cases x with
      | finish id' obj error ok uid =>
        rw [Event.result, if_neg]
        rintro rfl
        exact hx rfl
      | _ => rfl
    rw [h.replies, filterMap_append, filterMap_cons_none hnone, filterMap_nil, append_nil]
  attempts := by
    intro obj hm
    rcases h.attempts obj (mem_of_mem_concat hm rfl hx) with hfin | hcur
    · exact .inl (finished_concat hfin x)
    · exact .inr hcur
  auth := by
    intro ha
    obtain ⟨hflag, hevents, hfin⟩ := h.auth ha
    exact ⟨hflag, sublist_concat hevents x, fun hf => hfin (finished_of_concat hf hx)⟩

theorem stage_concat {id : ℕ} {a : Auth Challenge} (h : Stage log comm id conn a) (x : Event K) :
    Stage (log ++ [x]) comm id conn a := by
  cases h with
  | init hs hp => exact .init hs hp
  | waiting hs hp hw =>
    refine .waiting hs hp fun hc => ?_
    obtain ⟨t, hwait, hm⟩ := hw hc
    exact ⟨t, hwait, mem_append_left _ hm⟩
  | challenged hs hp he hc hw => exact .challenged hs hp (sublist_concat he x) hc hw
  | verifying hs hp hw =>
    refine .verifying hs hp fun hc => ?_
    obtain ⟨t, iv, c, sig, hwait, hm⟩ := hw hc
    exact ⟨t, iv, c, sig, hwait, mem_append_left _ hm⟩

theorem backed_concat {m : ToMaster} (h : Backed log m) (x : Event K) : Backed (log ++ [x]) m := by
  cases m with
  | request token uid =>
    obtain ⟨id, obj, he⟩ := h
    exact ⟨id, obj, sublist_concat he x⟩
  | verify token uid data sig =>
    obtain ⟨id, obj, mode, cert, c, iv, he, hrest⟩ := h
    exact ⟨id, obj, mode, cert, c, iv, sublist_concat he x, hrest⟩

theorem replied_concat {m : ToSession} (h : Replied sigOk log m) (x : Event K) : Replied sigOk (log ++ [x]) m := by
  cases m with
  | challenge c =>
    obtain ⟨id, obj, mode, cert, he, hrest⟩ := h
    exact ⟨id, obj, mode, cert, sublist_concat he x, hrest⟩
  | result token uid error =>
    obtain ⟨id, obj, mode, cert, c, iv, sig, cert', ok, he, hrest⟩ := h
    exact ⟨id, obj, mode, cert, c, iv, sig, cert', ok, sublist_concat he x, hrest⟩

/-- What an event needs of the counters. -/
def Admits (log : List (Event K)) (nexttoken nextObj : ℕ) : Event K → Prop
  | .connect id _ => ∀ uid, .connect id uid ∉ log
  | .attempt _ obj => obj < nextObj
  | .request _ _ token _ => token ≤ nexttoken ∧ ∀ x ∈ log, x.asks ≠ some token
  | .verify _ _ token _ _ _ _ => token ≤ nexttoken ∧ ∀ x ∈ log, x.asks ≠ some token
  | _ => True

theorem admits_token {t : ℕ} (h : Admits log nexttoken nextObj x) (hx : x.asks = some t) :
    t ≤ nexttoken ∧ ∀ x' ∈ log, x'.asks ≠ some t := by
  cases x with
  | request id obj token uid =>
    cases hx
    exact h
  | verify id obj token uid iv c sig =>
    cases hx
    exact h
  | _ => cases hx

theorem book_concat (h : Book sigOk p past log nexttoken nextObj nextConn) (hx : Admits log nexttoken nextObj x)
    (hid : ∀ id, x.about = some id → id < nextConn) (hok : Fine sigOk p log x) :
    Book sigOk p past (log ++ [x]) nexttoken nextObj nextConn where
  grown := h.grown.trans (prefix_append log [x])
  tokens := by
    intro x' hm t ht
    rcases mem_append.mp hm with hm | hm
    · exact h.tokens x' hm t ht
    · rw [mem_singleton.mp hm] at ht
      exact (admits_token hx ht).1
  own := by
    intro x₁ hm₁ hsome x₂ hm₂ he
    obtain ⟨t, ht⟩ := Option.isSome_iff_exists.mp hsome
    rcases mem_append.mp hm₁ with hm₁ | hm₁
    · rcases mem_append.mp hm₂ with hm₂ | hm₂
      · exact h.own x₁ hm₁ hsome x₂ hm₂ he
      · rw [mem_singleton.mp hm₂] at he
        exact absurd ht ((admits_token hx (he.trans ht)).2 x₁ hm₁)
    · rcases mem_append.mp hm₂ with hm₂ | hm₂
      · rw [mem_singleton.mp hm₁] at ht
        rw [mem_singleton.mp hm₁, ht] at he
        exact absurd he ((admits_token hx ht).2 x₂ hm₂)
      · rw [mem_singleton.mp hm₁, mem_singleton.mp hm₂]
  ids := by
    intro x' hm id hab
    rcases mem_append.mp hm with hm | hm
    · exact h.ids x' hm id hab
    · rw [mem_singleton.mp hm] at hab
      exact hid id hab
  euid := by
    intro id uid uid' hm hm'
    rcases mem_append.mp hm with hm | hm
    · rcases mem_append.mp hm' with hm' | hm'
      · exact h.euid id uid uid' hm hm'
      · rw [← mem_singleton.mp hm'] at hx
        exact absurd hm (hx uid)
    · rcases mem_append.mp hm' with hm' | hm'
      · rw [← mem_singleton.mp hm] at hx
        exact absurd hm' (hx uid')
      · have he := (mem_singleton.mp hm).trans (mem_singleton.mp hm').symm
        exact (Event.connect.inj he).2
  objs := by
    intro id obj hm
    rcases mem_append.mp hm with hm | hm
    · exact h.objs id obj hm
    · rw [← mem_singleton.mp hm] at hx
      exact hx
  ordered := atEach_concat h.ordered hok

theorem book_mono {nexttoken' nextObj' nextConn' : ℕ} (h : Book sigOk p past log nexttoken nextObj nextConn)
    (ht : nexttoken ≤ nexttoken') (ho : nextObj ≤ nextObj') (hc : nextConn ≤ nextConn') :
    Book sigOk p past log nexttoken' nextObj' nextConn' where
  grown := h.grown
  tokens := fun x hx t he => (h.tokens x hx t he).trans ht
  own := h.own
  ids := fun x hx id he => (h.ids x hx id he).trans_le hc
  euid := h.euid
  objs := fun id obj hm => (h.objs id obj hm).trans_le ho
  ordered := h.ordered

theorem sound_concat {id : ℕ} (h : Sound log comm id conn) (hx : x.about ≠ some id) :
    Sound (log ++ [x]) comm id conn :=
  ⟨held_concat h.held hx, fun a ha => stage_concat (h.stage a ha) x⟩

theorem inv_emit (h : Inv sigOk p past k y) (hab : x.about = none ∨ x.about = k)
    (hx : Admits y.log y.comm.nexttoken y.nextObj x) (hid : ∀ id, x.about = some id → id < y.nextConn)
    (hok : Fine sigOk p y.log x) : Inv sigOk p past k (y.emit x) where
  book := book_concat h.book hx hid hok
  homed := h.homed
  opened := h.opened
  flight := h.flight
  fresh := h.fresh
  gone := fun id hlt hnone => mem_append_left _ (h.gone id hlt hnone)
  sent := fun m hm => backed_concat (h.sent m hm) x
  back := fun m hm => replied_concat (h.back m hm) x
  conns := by
    intro id conn hc hk
    refine sound_concat (h.conns id conn hc hk) fun he => ?_
    rcases hab with hab | hab
    · rw [hab] at he
      cases he
    · exact hk (hab.symm.trans he)

end Anoubis.Daemon.Auth

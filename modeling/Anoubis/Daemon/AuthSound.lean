import Anoubis.Daemon.AuthRuns

/-! Authentication is sound.

    A connection is authenticated as the user on the other end of its socket, and only by the master's
    answer to a request of the attempt that is current: an answer without challenge, or a signature of the
    challenge that the master sent for this request. Every attempt ends once, with one AUTHREPLY. What goes
    wrong is what follows the end: a challenge for an attempt of type TRANSPORT is refused, and the object
    that is gone by then is read and written, and the challenge is sent all the same. -/

namespace Anoubis.Daemon.Auth

open Anoubis.Lib Anoubis.Proto Anoubis.Connection

variable {K : Type} {sigOk : K → Bytes → Bytes → Bool} {env : Env}
variable {past : List (Event K)} {y : Sys K}

theorem inv_runs {p : Prop} {y' : Sys K} {ops : List (Op K)} (h : Inv sigOk p past none y)
    (ha : Along (step env sigOk) (fun y op => p → Calm y op) y ops) (hr : runs (step env sigOk) y ops = some y') :
    Inv sigOk p past none y' :=
  runs_invariant (fun _ _ _ hI hp hs => inv_step hI hp hs) h ha hr

/-- Every run, whatever the conditions. -/
theorem inv_reached {y' : Sys K} {ops : List (Op K)} (h : Inv sigOk False past none y)
    (hr : runs (step env sigOk) y ops = some y') : Inv sigOk False past none y' :=
  inv_runs h (along_of_forall (fun _ _ hp => hp.elim) y ops) hr

theorem Inv.now {p : Prop} {k : Option ℕ} (h : Inv sigOk p past k y) : Inv sigOk p y.log k y :=
  { h with book := { h.book with grown := List.prefix_refl _ } }

/-! ### A user with a key -/

section Login

/-- Everything is sent. -/
def quietEnv : Env := ⟨fun _ => true, fun _ => true, fun _ => true⟩

/-- A key is one byte, and it stands in front of what it signs. -/
def keySig (key : UInt8) (data sig : Bytes) : Bool := sig == key :: data

/-- A master that asks for signatures. -/
def strict : MasterEnv UInt8 where
  authMode := .enabled
  certs := fun uid => if uid = 1000 then some ⟨false, [5], some 7⟩ else none
  randStatus := true
  timeError := 0
  cdata := List.replicate 32 1
  cdata_size := rfl

def authMsg : Bytes := [0, 0, 0x20, 0x10, 0, 0, 0, 0]

def authdataMsg (authType : UInt8) (payload : Bytes) : Bytes :=
  [0, 0, 0x20, 0x11, 0, 0, 0, authType] ++ payload ++ [0, 0, 0, 0]

/-- The uid 1000, an iv of one byte and the signature. -/
def replyMsg : Bytes :=
  authdataMsg 3 ([0, 0, 3, 0xE8, 0, 0, 0, 1, 0, 0, 0, 34, 9] ++ (7 :: 9 :: List.replicate 32 1))

def login : List (Op UInt8) :=
  [.connect 1000, .client 0 authMsg, .client 0 (authdataMsg 1 []), .master strict, .deliver,
    .client 0 replyMsg, .master strict, .deliver]

/-- The user has a key and does not want to use it. -/
def refused : List (Op UInt8) :=
  [.connect 1000, .client 0 authMsg, .client 0 (authdataMsg 0 []), .master strict, .deliver]

end Login

/-! ### Who is authenticated -/

/-- A connection is authenticated as its user and by an attempt that was granted, for as long as it lives. -/
theorem authentication_sound {ops : List (Op K)} {y : Sys K}
    (hr : runs (step env sigOk) Sys.init ops = some y) {id : ℕ} {conn : Conn} (hc : y.conns id = some conn)
    (hflag : conn.server.flagAuth = true) :
    conn.server.authUid = conn.euid ∧
    (∃ obj pre post, y.log = pre ++ .finish id obj 0 true conn.euid :: post ∧ Current pre id obj ∧
      Granted sigOk pre id obj conn.euid) ∧
    ∀ ops' y' conn', runs (step env sigOk) y ops' = some y' → y'.conns id = some conn' →
      conn'.euid = conn.euid ∧ conn'.server.flagAuth = true ∧
        conn'.server.authUid = conn.server.authUid := by
  have hinv : Inv sigOk False [] none y := inv_reached inv_init hr
  have hheld := (hinv.conns id conn hc nofun).held
  have huid := hheld.uid hflag
  obtain ⟨obj, error, uid, hm⟩ := hheld.flag.mp hflag
  refine ⟨huid, ?_, fun ops' y' conn' hr' hc' => ?_⟩
  · obtain ⟨pre, post, hl⟩ := List.append_of_mem hm
    obtain ⟨hcur, hok, hgrant⟩ := hinv.book.ordered pre _ post hl
    obtain rfl : error = 0 := hok.mp rfl
    have hconn : .connect id uid ∈ y.log := by
      rw [hl]
      refine List.mem_append_left _ ?_
      cases hgrant rfl with
      | passed he => exact he.subset (by simp [challenging, asking])
      | signed he => exact he.subset (by simp [verifying, signing, challenging, asking])
    obtain rfl : uid = conn.euid := hinv.book.euid id uid conn.euid hconn hheld.connected
    exact ⟨obj, pre, post, hl, hcur, hgrant rfl⟩
  · -- the log only grows, and it says who is authenticated
    have hinv' : Inv sigOk False y.log none y' := inv_reached hinv.now hr'
    have hheld' := (hinv'.conns id conn' hc' nofun).held
    have hflag' := hheld'.flag.mpr ⟨obj, error, uid, hinv'.book.grown.subset hm⟩
    have heuid : conn'.euid = conn.euid :=
      hinv'.book.euid id _ _ hheld'.connected (hinv'.book.grown.subset hheld.connected)
    exact ⟨heuid, hflag', by rw [hheld'.uid hflag', heuid, huid]⟩

theorem authentication_sound_login : ∃ y conn, runs (step quietEnv keySig) Sys.init login = some y ∧
    y.conns 0 = some conn ∧ conn.server.flagAuth = true ∧ conn.server.authUid = 1000 ∧
    ∃ obj pre post, y.log = pre ++ .finish 0 obj 0 true conn.euid :: post ∧
      Granted keySig pre 0 obj conn.euid := by
  have hend : ((runs (step quietEnv keySig) Sys.init login).bind (fun y => (y.conns 0).map (fun conn =>
      (conn.euid, conn.server.flagAuth)))) = some (1000, true) := by decide +kernel
  obtain ⟨y, hr, hend⟩ := Option.bind_eq_some_iff.mp hend
  obtain ⟨conn, hc, hend⟩ := Option.map_eq_some_iff.mp hend
  obtain ⟨heuid, hflag⟩ := Prod.mk.inj hend
  obtain ⟨huid, ⟨obj, pre, post, hl, -, hgrant⟩, -⟩ := authentication_sound hr hc hflag
  exact ⟨y, conn, hr, hc, hflag, huid.trans heuid, obj, pre, post, hl, hgrant⟩

/-! ### How attempts end -/

/-- What an event needs of those before it. -/
def Once (pre : List (Event K)) : Event K → Prop
  | .attempt id obj => .attempt id obj ∉ pre
  | .touch id obj => ¬ Finished pre id obj
  | .challenge id obj => ¬ Finished pre id obj
  | .finish id obj error ok _ => .attempt id obj ∈ pre ∧ ¬ Finished pre id obj ∧ (error = 0 ↔ ok = true)
  | _ => True

/-- The attempt goes on: it waits for its client, or for an answer that is on its way. -/
def Pending (y : Sys K) (id obj : ℕ) : Prop :=
  ∃ conn a, y.conns id = some conn ∧ conn.obj = obj ∧ conn.server.auth = some a ∧
    (conn.server.chan = true → a.state = .init ∨ a.authPrivate.isSome = true ∨
      ∃ f t, Waits y.comm f id t ∧ ((∃ m ∈ y.s2m, m.token = t) ∨ ∃ m ∈ y.m2s, m.token = t))

/-- Every attempt ends once, and then it is over. -/
structure EndsOnce (y : Sys K) : Prop where
  once : AtEach Once y.log
  ends : ∀ id obj, .attempt id obj ∈ y.log →
    Finished y.log id obj ∨ .disconnect id ∈ y.log ∨ Pending y id obj
  replies : ∀ id conn, y.conns id = some conn → replies conn.server = y.log.filterMap (Event.result id)
  authenticated : ∀ id conn, y.conns id = some conn →
    (conn.server.flagAuth = true ↔ ∃ obj error uid, .finish id obj error true uid ∈ y.log)

theorem once_of_fine {pre : List (Event K)} {x : Event K} (h : Fine sigOk True pre x) : Once pre x := by
  cases x with
  | attempt id obj => exact fun hm => (h obj hm).1 rfl
  | touch id obj => exact h trivial
  | challenge id obj => exact h trivial
  | finish id obj error ok uid => exact ⟨h.1.started, h.1.pending, h.2.1.symm⟩
  | _ => trivial

theorem pending_of_current (h : Inv sigOk True [] none y) {id : ℕ} {conn : Conn} (hc : y.conns id = some conn)
    (hauth : conn.server.auth.isSome = true) : Pending y id conn.obj := by
  obtain ⟨a, ha⟩ := Option.isSome_iff_exists.mp hauth
  refine ⟨conn, a, hc, rfl, ha, fun hchan => ?_⟩
  cases (h.conns id conn hc nofun).stage a ha with
  | init hs => exact .inl hs
  | waiting _ _ hw =>
    obtain ⟨t, hwait, -⟩ := hw hchan
    exact .inr (.inr ⟨0, t, hwait, h.flight 0 id t hwait⟩)
  | challenged _ hp => exact .inr (.inl (by rw [hp]; rfl))
  | verifying _ _ hw =>
    obtain ⟨t, iv, c, sig, hwait, -⟩ := hw hchan
    exact .inr (.inr ⟨1, t, hwait, h.flight 1 id t hwait⟩)

/-- Where no challenge is sent to an attempt of type TRANSPORT. -/
theorem attempts_end_once {ops : List (Op K)} {y : Sys K} (hcalm : Along (step env sigOk) Calm Sys.init ops)
    (hr : runs (step env sigOk) Sys.init ops = some y) : EndsOnce y := by
  have hinv : Inv sigOk True [] none y :=
    inv_runs inv_init (hcalm.mono (I := fun _ => True) (fun _ _ _ _ _ => trivial)
      (fun _ _ _ hp _ => hp) trivial) hr
  refine ⟨fun pre x post hl => once_of_fine (hinv.book.ordered pre x post hl), fun id obj hm => ?_,
    fun id conn hc => (hinv.conns id conn hc nofun).held.replies,
    fun id conn hc => (hinv.conns id conn hc nofun).held.flag⟩
  cases hc : y.conns id with
  | none => exact Or.inr (Or.inl (hinv.gone id (hinv.book.ids _ hm id rfl) hc))
  | some conn =>
    rcases (hinv.conns id conn hc nofun).held.attempts obj hm with hfin | ⟨hauth, rfl⟩
    · exact Or.inl hfin
    · exact Or.inr (Or.inr (pending_of_current hinv hc hauth))

theorem attempts_end_once_login : ∃ y, runs (step quietEnv keySig) Sys.init login = some y ∧ EndsOnce y ∧
    Finished y.log 0 0 := by
  have hfin : (runs (step quietEnv keySig) Sys.init login).map (fun y => y.log.getLast?) =
      some (some (.finish 0 0 0 true 1000)) := by decide +kernel
  obtain ⟨y, hr, hlast⟩ := Option.map_eq_some_iff.mp hfin
  exact ⟨y, hr, attempts_end_once (by decide +kernel) hr, 0, true, 1000, List.mem_of_getLast? hlast⟩

/-- The object is gone, and it is written, and the challenge is sent. -/
theorem challenged_when_gone : ∃ y, runs (step quietEnv keySig) Sys.init refused = some y ∧ ¬ EndsOnce y := by
  have hlog : (runs (step quietEnv keySig) Sys.init refused).map (fun y => y.log.drop 6) =
      some [.touch 0 0, .finish 0 0 eperm false uidDefault, .touch 0 0, .challenge 0 0] := by decide +kernel
  obtain ⟨y, hr, hdrop⟩ := Option.map_eq_some_iff.mp hlog
  refine ⟨y, hr, fun h => ?_⟩
  have hsplit : y.log = (y.log.take 6 ++ [.touch 0 0, .finish 0 0 eperm false uidDefault]) ++
      .touch 0 0 :: [.challenge 0 0] := by
    rw [List.append_assoc, List.cons_append, List.cons_append, List.nil_append, ← hdrop, List.take_append_drop]
  refine h.once _ _ _ hsplit ⟨eperm, false, uidDefault, ?_⟩
  simp

end Anoubis.Daemon.Auth

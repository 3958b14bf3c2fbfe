import Anoubis.Daemon.AuthInv

/-! What the handlers do to an authentication.

    A handler works on one connection, and for the time being nothing is said about it. It writes to the log,
    it enters a request into the table, and in the end it puts the server object back:

        Inv (some id) --emit, ask--> Inv (some id) --put--> Inv none              -/

namespace Anoubis.Daemon.Auth

open List

open Anoubis.Lib Anoubis.Proto Anoubis.Connection Option

variable {K : Type} {sigOk : K → Bytes → Bytes → Bool} {p : Prop} {past : List (Event K)} {k : Option ℕ}
  {y : Sys K}

/-- A connection is taken out. -/
theorem Inv.work (h : Inv sigOk p past none y) (k : Option ℕ) : Inv sigOk p past k y :=
  { h with conns := fun id conn hc _ => h.conns id conn hc nofun }

variable {id : ℕ} {conn : Conn} {log : List (Event K)} {comm : PolicyComm.Comm} {a : Auth Challenge}
variable {server : Server Challenge} {env : Env} {y' : Sys K}

/-- It is put back. -/
theorem Inv.settle (h : Inv sigOk p past (some id) y)
    (hid : ∀ conn, y.conns id = some conn → Sound y.log y.comm id conn) : Inv sigOk p past none y where
  book := h.book
  homed := h.homed
  opened := h.opened
  flight := h.flight
  fresh := h.fresh
  gone := h.gone
  sent := h.sent
  back := h.back
  conns := by
    intro id' conn hc _
    by_cases he : id' = id
    · subst he
      exact hid conn hc
    · exact h.conns id' conn hc fun hk => he (some.inj hk).symm

theorem Inv.lt_nextConn (h : Inv sigOk p past k y) (hc : y.conns id = some conn) : id < y.nextConn := by
  by_contra hle
  rw [h.fresh id (not_lt.mp hle)] at hc
  cases hc

theorem Held.current (h : Held log id conn) (ha : conn.server.auth.isSome = true) : Current log id conn.obj where
  started := (h.auth ha).2.1.subset (by simp)
  pending := (h.auth ha).2.2
  only := by
    intro obj hm
    rcases h.attempts obj hm with hfin | ⟨-, rfl⟩
    · exact .inr hfin
    · exact .inl rfl

variable {comm' : PolicyComm.Comm} {f obj token : ℕ} {x : Event K} {m : ToMaster} {buf : Bytes}

/-- The stage depends on the requests of the connection only. -/
theorem stage_congr {conn' : Conn} (h : Stage log comm id conn a) (hobj : conn'.obj = conn.obj)
    (heuid : conn'.euid = conn.euid) (hchan : conn'.server.chan = true → conn.server.chan = true)
    (hopen : conn'.server.chan = true → ∀ f t, Waits comm f id t → Waits comm' f id t)
    (hback : ∀ f t, Waits comm' f id t → Waits comm f id t) : Stage log comm' id conn' a := by
  cases h with
  | init hs hp => exact .init hs hp
  | waiting hs hp hw =>
    refine .waiting hs hp fun hc => ?_
    obtain ⟨t, hwait, hm⟩ := hw (hchan hc)
    rw [hobj, heuid]
    exact ⟨t, hopen hc 0 t hwait, hm⟩
  | challenged hs hp he hc hw =>
    rw [← hobj, ← heuid] at he
    rw [← heuid] at hc
    exact .challenged hs hp he hc fun f t hwait => hw f t (hback f t hwait)
  | verifying hs hp hw =>
    refine .verifying hs hp fun hc => ?_
    obtain ⟨t, iv, c, sig, hwait, hm⟩ := hw (hchan hc)
    rw [hobj, heuid]
    exact ⟨t, iv, c, sig, hopen hc 1 t hwait, hm⟩

theorem Stage.unsaved (h : Stage log comm id conn a) (hinit : a.state = .init) : a.authPrivate = none := by
  cases h with
  | init hs hp => exact hp
  | waiting hs => exact AuthState.noConfusion (hs.symm.trans hinit)
  | challenged hs => exact AuthState.noConfusion (hs.symm.trans hinit)
  | verifying hs => exact AuthState.noConfusion (hs.symm.trans hinit)

theorem Stage.saved (h : Stage log comm id conn a) {c : Challenge} (hc : a.authPrivate = some c) :
    ∃ mode cert, (challenging id conn.obj conn.euid mode cert c).Sublist log ∧ c.For conn.euid := by
  cases h with
  | init _ hp =>
    rw [hp] at hc
    cases hc
  | waiting _ hp =>
    rw [hp] at hc
    cases hc
  | challenged _ hp he hfor =>
    cases hp.symm.trans hc
    exact ⟨_, _, he, hfor⟩
  | verifying _ hp =>
    rw [hp] at hc
    cases hc

theorem sound_congr (h : Sound log comm id conn) (hsame : ∀ f t, Waits comm' f id t ↔ Waits comm f id t) :
    Sound log comm' id conn :=
  ⟨h.held, fun a ha => stage_congr (h.stage a ha) rfl rfl (fun hc => hc) (fun _ f t => (hsame f t).mpr)
    fun f t => (hsame f t).mp⟩

/-! ### The server object -/

/-- The requests when the server object is put back. -/
theorem waits_put (hh : Homed y.comm) (id : ℕ) (conn : Conn) (server : Server Challenge) :
    Homed (y.put id conn server).comm ∧ (y.put id conn server).comm.nexttoken = y.comm.nexttoken ∧
      ∀ f id' t, Waits (y.put id conn server).comm f id' t ↔
        Waits y.comm f id' t ∧ (id' = id → conn.server.chan = true → server.chan = true) := by
  by_cases hclose : (conn.server.chan && !server.chan) = true
  · have hcomm : (y.put id conn server).comm = PolicyComm.destroy y.comm id := if_pos hclose
    rw [hcomm]
    obtain ⟨hd, hw⟩ := waits_destroy hh id
    simp only [Bool.and_eq_true, Bool.not_eq_true'] at hclose
    refine ⟨hd, nexttoken_destroy y.comm id, fun f id' t => ?_⟩
    rw [hw, hclose.2]
    simp [hclose.1]
  · have hcomm : (y.put id conn server).comm = y.comm := if_neg hclose
    rw [hcomm]
    refine ⟨hh, rfl, fun f id' t => ⟨fun hw => ⟨hw, fun _ hc => ?_⟩, And.left⟩⟩
    by_contra hs
    exact hclose (by simp [hc, hs])

theorem waits_put_same (hh : Homed y.comm) (hchan : server.chan = conn.server.chan) {id' t : ℕ} :
    Waits (y.put id conn server).comm f id' t ↔ Waits y.comm f id' t := by
  obtain ⟨-, -, hwaits⟩ := waits_put hh id conn server
  rw [hwaits, hchan]
  exact and_iff_left fun _ hc => hc

theorem inv_put {conn₀ : Conn} (h : Inv sigOk p past (some id) y) (h0 : y.conns id = some conn₀)
    (hchan : conn.server.chan = conn₀.server.chan) (hheld : Held y.log id { conn with server := server })
    (hstage : ∀ a, server.auth = some a →
      Stage y.log (y.put id conn server).comm id { conn with server := server } a) :
    Inv sigOk p past none (y.put id conn server) := by
  obtain ⟨hhomed, htok, hwaits⟩ := waits_put h.homed id conn server
  have hself : (y.put id conn server).conns id = some { conn with server := server } :=
    Function.update_self ..
  have hother : ∀ id', id' ≠ id → (y.put id conn server).conns id' = y.conns id' :=
    fun id' hne => Function.update_of_ne hne ..
  have hwork : Inv sigOk p past (some id) (y.put id conn server) := by
    refine ⟨?_, hhomed, fun f id' t hw => ?_, fun f id' t hw => ?_, fun id' hle => ?_, fun id' hlt hnone => ?_,
      h.sent, h.back, fun id' conn' hc hk => ?_⟩
    · rw [htok]
      exact h.book
    · obtain ⟨hw, hid⟩ := (hwaits f id' t).mp hw
      obtain ⟨conn', hc, hopen⟩ := h.opened f id' t hw
      by_cases he : id' = id
      · subst he
        cases h0.symm.trans hc
        exact ⟨_, hself, hid rfl (hchan.trans hopen)⟩
      · exact ⟨conn', (hother id' he).trans hc, hopen⟩
    · exact h.flight f id' t ((hwaits f id' t).mp hw).1
    · rw [hother id' ?_]
      · exact h.fresh id' hle
      · rintro rfl
        exact absurd (h.lt_nextConn h0) (not_lt.mpr hle)
    · by_cases he : id' = id
      · subst he
        rw [hself] at hnone
        cases hnone
      · exact h.gone id' hlt ((hother id' he).symm.trans hnone)
    · have hne : id' ≠ id := fun he => hk (congrArg some he.symm)
      refine sound_congr (h.conns id' conn' ((hother id' hne).symm.trans hc) hk) fun f t => ?_
      rw [hwaits]
      exact and_iff_left fun he => absurd he hne
  refine hwork.settle fun conn' hc => ?_
  cases hself.symm.trans hc
  exact ⟨hheld, hstage⟩

/-- What the rest of the server does to a connection. -/
theorem held_keeps (h : Held log id conn) (hk : Keeps false conn.server server) :
    Held log id { conn with server := server } where
  connected := h.connected
  wired := hk.wired h.wired
  flag := by rw [hk.flagAuth, h.flag]
  uid := by
    rw [hk.flagAuth, hk.authUid]
    exact h.uid
  replies := hk.replies.trans h.replies
  attempts := by
    rw [hk.auth_eq]
    exact h.attempts
  auth := by
    rw [hk.auth_eq, hk.flagAuth]
    exact h.auth

/-- A call that does not touch the authentication. -/
theorem inv_keeps (h : Inv sigOk p past none y) (hc : y.conns id = some conn)
    (hk : Keeps false conn.server server) : Inv sigOk p past none (y.put id conn server) := by
  have hs := h.conns id conn hc nofun
  obtain ⟨-, -, hwaits⟩ := waits_put h.homed id conn server
  refine inv_put (h.work (some id)) hc rfl (held_keeps hs.held hk) fun a ha => ?_
  rw [hk.auth_eq] at ha
  refine stage_congr (hs.stage a ha) rfl rfl hk.chan (fun hopen f t hw => ?_) fun f t hw => ?_
  · exact (hwaits f id t).mpr ⟨hw, fun _ _ => hopen⟩
  · exact ((hwaits f id t).mp hw).1

/-- `anoubis_process_auth` makes a new object. -/
theorem inv_attempt (h : Inv sigOk p past none y) (hc : y.conns id = some conn)
    (hk : Keeps true conn.server server) (hnone : conn.server.auth = none) (hflag : conn.server.flagAuth = false)
    (hauth : server.auth = some Auth.create) :
    Inv sigOk p past none (({ y with nextObj := y.nextObj + 1 }.emit (.attempt id y.nextObj)).put id
      { conn with obj := y.nextObj } server) := by
  have hs := (h.conns id conn hc nofun).held
  have hlt := h.lt_nextConn hc
  have hnext : Inv sigOk p past (some id) { y with nextObj := y.nextObj + 1 } :=
    { h.work (some id) with book := book_mono h.book le_rfl (Nat.le_succ _) le_rfl }
  have hdone : ∀ obj, .attempt id obj ∈ y.log → Finished y.log id obj := by
    intro obj hm
    rcases hs.attempts obj hm with hfin | ⟨hsome, -⟩
    · exact hfin
    · rw [hnone] at hsome
      cases hsome
  have hwork := inv_emit hnext (x := .attempt id y.nextObj) (.inr rfl) (Nat.lt_succ_self _)
    (fun id' he => some.inj he ▸ hlt) fun obj hm =>
      ⟨ne_of_lt (h.book.objs id obj hm), hdone obj hm⟩
  have hnew : ∀ error ok uid, .finish id y.nextObj error ok uid ∉ y.log := by
    intro error ok uid hm
    obtain ⟨pre, post, hl⟩ := append_of_mem hm
    have hcur := (h.book.ordered pre _ post hl).1.started
    have hpre : .attempt id y.nextObj ∈ y.log := hl ▸ mem_append_left _ hcur
    exact absurd (h.book.objs id _ hpre) (lt_irrefl _)
  have hconcat : ∀ {obj error uid : ℕ} {ok : Bool},
      .finish id obj error ok uid ∈ y.log ++ [.attempt id y.nextObj] ↔ .finish id obj error ok uid ∈ y.log := by
    intro obj error uid ok
    simp
  refine inv_put hwork hc rfl ?_ fun a ha => ?_
  · refine ⟨mem_append_left _ hs.connected, hk.wired hs.wired, ?_, ?_, ?_, ?_, ?_⟩
    · simp only [Sys.emit, hconcat]
      rw [hk.flagAuth, hs.flag]
    · rw [hk.flagAuth, hk.authUid]
      exact hs.uid
    · rw [hk.replies, hs.replies]
      simp [Sys.emit, Event.result]
    · intro obj hm
      rcases mem_append.mp hm with hm | hm
      · exact .inl (finished_concat (hdone obj hm) _)
      · refine .inr ⟨by rw [hauth]; rfl, ?_⟩
        exact (Event.attempt.inj (mem_singleton.mp hm)).2
    · intro _
      refine ⟨hk.flagAuth.trans hflag, ?_, ?_⟩
      · exact (singleton_sublist.mpr hs.connected).append (.refl [_])
      · rintro ⟨error, ok, uid, hm⟩
        exact hnew error ok uid (hconcat.mp hm)
  · cases hauth.symm.trans ha
    exact .init rfl rfl

/-- The result of an attempt. -/
structure Ends (sigOk : K → Bytes → Bytes → Bool) (log : List (Event K)) (id : ℕ) (conn : Conn)
    (a : Auth Challenge) : Prop where
  success : a.state = .success → a.uid = conn.euid ∧ Granted sigOk log id conn.obj conn.euid
  failure : a.state = .failure → a.error ≠ 0

theorem inv_touch (h : Inv sigOk p past k y) (hcur : p → ¬ Finished y.log id obj) :
    Inv sigOk p past k (y.emit (.touch id obj)) :=
  inv_emit h (.inl rfl) trivial nofun hcur

theorem own_concat {x' : Event K} (h : Own log x) (hx : x.asks.isSome = true) (hx' : x'.asks = none) :
    Own (log ++ [x']) x := by
  intro x₁ hm he
  rcases mem_append.mp hm with hm | hm
  · exact h x₁ hm he
  · rw [mem_singleton.mp hm, hx'] at he
    rw [← he] at hx
    cases hx

theorem granted_concat {uid : ℕ} (h : Granted sigOk log id obj uid) (hx : x.asks = none) :
    Granted sigOk (log ++ [x]) id obj uid := by
  cases h with
  | passed he hown hfree => exact .passed (sublist_concat he x) (own_concat hown rfl hx) hfree
  | signed he hown hown' hc hkey hsig =>
    exact .signed (sublist_concat he x) (own_concat hown rfl hx) (own_concat hown' rfl hx) hc hkey hsig

/-- The connection behind its finish callback. -/
theorem held_finish (h : Held log id conn) (hauth : conn.server.auth.isSome = true)
    (hchan : conn.server.chan = true) (huid : a.state = .success → a.uid = conn.euid)
    (hcb : anoubisAuthFinishCallback env { conn.server with auth := some a } = some server) :
    Held (log ++ [.finish id conn.obj (if a.state = .success then 0 else a.error)
      (decide (a.state = .success)) a.uid]) id { conn with server := server } := by
  obtain ⟨hnone, -, hwired, hres, hrep⟩ := finishCallback_spec rfl hcb
  have hflag := (h.auth hauth).1
  have hbefore : ∀ obj error uid, .finish id obj error true uid ∉ log := by
    intro obj error uid hm
    rw [h.flag.mpr ⟨obj, error, uid, hm⟩] at hflag
    cases hflag
  refine ⟨mem_append_left _ h.connected, hwired h.wired, ?_, ?_, ?_, ?_, ?_⟩
  · rcases hres with ⟨hs, hset, -⟩ | ⟨hs, hset, -⟩
    · refine iff_of_true hset ⟨conn.obj, 0, a.uid, mem_append_right _ ?_⟩
      simp [hs]
    · refine iff_of_false ?_ ?_
      · rw [hset]
        exact fun hf => Bool.noConfusion (hf.symm.trans hflag)
      · rintro ⟨obj, error, uid, hm⟩
        rcases mem_append.mp hm with hm | hm
        · exact hbefore obj error uid hm
        · simp [hs] at hm
  · rcases hres with ⟨hs, -, hset⟩ | ⟨hs, hset, -⟩
    · intro _
      exact hset.trans (huid hs)
    · intro hf
      exact Bool.noConfusion (hf.symm.trans (hset.trans hflag))
  · rw [hrep hchan h.wired, filterMap_append]
    have hold : replies { conn.server with auth := some a } = log.filterMap (Event.result id) := h.replies
    rw [hold]
    simp [Event.result]
  · intro obj hm
    left
    rcases mem_append.mp hm with hm | hm
    · rcases h.attempts obj hm with hfin | ⟨-, rfl⟩
      · exact finished_concat hfin _
      · exact ⟨_, _, _, mem_append_right _ (mem_singleton.mpr rfl)⟩
    · cases mem_singleton.mp hm
  · intro hsome
    rw [hnone] at hsome
    cases hsome

/-- The end of an attempt. -/
theorem inv_finish (h : Inv sigOk p past (some id) y) (hc : y.conns id = some conn) (hheld : Held y.log id conn)
    (hauth : conn.server.auth.isSome = true) (hchan : conn.server.chan = true)
    (hends : Ends sigOk y.log id conn a) (hf : finish env y id conn a = some y') :
    Inv sigOk p past none y' ∧ Finished y'.log id conn.obj ∧
      ∃ server, y'.conns id = some { conn with server := server } ∧ server.auth = none := by
  obtain ⟨server, hcb, rfl⟩ := map_eq_some_iff.mp hf
  obtain ⟨hnone, -, -, hres, -⟩ := finishCallback_spec rfl hcb
  have hcur := hheld.current hauth
  have htouch := inv_touch h (fun _ => hcur.pending)
  have hheld' : Held (y.emit (.touch id conn.obj)).log id conn := held_concat hheld nofun
  have hcur' := hheld'.current hauth
  have hstate : a.state = .success ∨ a.state = .failure := by
    rcases hres with ⟨hs, -⟩ | ⟨hs, -⟩
    · exact .inl hs
    · exact .inr hs
  -- the two results as the log has them
  have hfine : Fine sigOk p (y.emit (.touch id conn.obj)).log (.finish id conn.obj
      (if a.state = .success then 0 else a.error) (decide (a.state = .success)) a.uid) := by
    refine ⟨hcur', ?_, fun hok => ?_⟩
    · rcases hstate with hs | hs
      · simp [hs]
      · simp [hs, hends.failure hs]
    · obtain ⟨huid, hgrant⟩ := hends.success (of_decide_eq_true hok)
      rw [huid]
      exact granted_concat hgrant rfl
  have hlast := inv_emit (x := .finish id conn.obj _ _ _) htouch (.inr rfl) trivial
    (fun id' he => some.inj he ▸ h.lt_nextConn hc) hfine
  refine ⟨inv_put hlast hc rfl ?_ fun a' ha' => ?_, ?_, server, Function.update_self .., hnone⟩
  · exact held_finish hheld' hauth hchan (fun hs => (hends.success hs).1) hcb
  · rw [hnone] at ha'
    cases ha'
  · exact ⟨_, _, _, mem_append_right _ (mem_singleton.mpr rfl)⟩

theorem inv_fail {error : ℕ} (h : Inv sigOk p past (some id) y) (hc : y.conns id = some conn)
    (hheld : Held y.log id conn) (hauth : conn.server.auth.isSome = true) (hchan : conn.server.chan = true)
    (herr : error ≠ 0) (hf : fail env y id conn a error = some y') : Inv sigOk p past none y' :=
  (inv_finish h hc hheld hauth hchan ⟨fun hs => AuthState.noConfusion hs, fun _ => herr⟩ hf).1

/-! ### Requests to the master -/

/-- A request enters the table, a message leaves, and the log says so. -/
theorem inv_ask (h : Inv sigOk p past (some id) y) (hc : y.conns id = some conn) (hchan : conn.server.chan = true)
    (hf : f < 2) (hadd : PolicyComm.addrequest y.comm id 3 (.reply f id) false = .ok (token, comm))
    (hm : m.token = token) (hx : x.asks = some token) (hback : Backed (y.log ++ [x]) m) :
    Inv sigOk p past (some id) ({ y with comm := comm, s2m := y.s2m ++ [m] }.emit x) := by
  obtain ⟨hhomed, htok, hnext, -, hwaits⟩ := waits_addrequest h.homed hf hadd
  have hnew : ∀ x' ∈ y.log, x'.asks ≠ some token := by
    intro x' hm he
    have := h.book.tokens x' hm token he
    omega
  have hab : x.about = none := by
    cases x with
    | request id obj token uid => rfl
    | verify id obj token uid iv c sig => rfl
    | _ => cases hx
  have hbook : Book sigOk p past (y.log ++ [x]) comm.nexttoken y.nextObj y.nextConn := by
    refine book_concat (book_mono h.book (by omega) le_rfl le_rfl) ?_ ?_ ?_
    · cases x with
      | request id obj token uid =>
        cases hx
        exact ⟨hnext.ge, hnew⟩
      | verify id obj token uid iv c sig =>
        cases hx
        exact ⟨hnext.ge, hnew⟩
      | _ => cases hx
    · rw [hab]
      exact nofun
    · cases x with
      | request id obj token uid => trivial
      | verify id obj token uid iv c sig => trivial
      | _ => cases hx
  refine ⟨hbook, hhomed, fun f' id' t hw => ?_, fun f' id' t hw => ?_, h.fresh, fun id' hlt hnone => ?_,
    fun m' hm' => ?_, fun m' hm' => replied_concat (h.back m' hm') x, fun id' conn' hc' hk => ?_⟩
  · rcases (hwaits f' id' t).mp hw with ⟨-, rfl, -⟩ | hw
    · exact ⟨conn, hc, hchan⟩
    · exact h.opened f' id' t hw
  · rcases (hwaits f' id' t).mp hw with ⟨-, -, rfl⟩ | hw
    · exact .inl ⟨m, mem_append_right _ (mem_singleton.mpr rfl), hm⟩
    · rcases h.flight f' id' t hw with ⟨m', hm', ht⟩ | hm'
      · exact .inl ⟨m', mem_append_left _ hm', ht⟩
      · exact .inr hm'
  · exact mem_append_left _ (h.gone id' hlt hnone)
  · rcases mem_append.mp hm' with hm' | hm'
    · exact backed_concat (h.sent m' hm') x
    · rw [mem_singleton.mp hm']
      exact hback
  · have hsound := sound_concat (h.conns id' conn' hc' hk) (x := x) (by rw [hab]; exact nofun)
    refine sound_congr hsound fun f' t => ?_
    rw [Sys.emit, hwaits]
    exact or_iff_right fun he => hk (congrArg some he.2.1.symm)

/-- The connection goes on with the object in a new state. -/
theorem held_setAuth (h : Held log id conn) (hauth : conn.server.auth.isSome = true) (a : Auth Challenge) :
    Held log id { conn with server := { conn.server with auth := some a } } where
  connected := h.connected
  wired := h.wired
  flag := h.flag
  uid := h.uid
  replies := h.replies
  attempts := by
    intro obj hm
    rcases h.attempts obj hm with hfin | ⟨-, ho⟩
    · exact .inl hfin
    · exact .inr ⟨rfl, ho⟩
  auth := fun _ => h.auth hauth

/-- The object goes on with what it waits for now. -/
theorem inv_asked (h : Inv sigOk p past none y) (hc : y.conns id = some conn)
    (hsome : conn.server.auth.isSome = true) (hchan : conn.server.chan = true) (hf : f < 2)
    (hadd : PolicyComm.addrequest y.comm id 3 (.reply f id) false = .ok (token, comm)) (hm : m.token = token)
    (hx : x.asks = some token) (hback : Backed (y.log ++ [x]) m) (hab : x.about ≠ some id)
    (hstage : ∀ comm', Waits comm' f id token → x ∈ y.log ++ [x] →
      Stage (y.log ++ [x]) comm' id { conn with server := { conn.server with auth := some a } } a) :
    Inv sigOk p past none (({ y with comm := comm, s2m := y.s2m ++ [m] }.emit x).put id conn
      { conn.server with auth := some a }) := by
  have hask := inv_ask (h.work (some id)) hc hchan hf hadd hm hx hback
  have hheld := held_concat (x := x) (h.conns id conn hc nofun).held hab
  obtain ⟨-, -, -, -, hwaits⟩ := waits_addrequest h.homed hf hadd
  refine inv_put hask hc rfl (held_setAuth hheld hsome _) fun a' ha' => ?_
  cases ha'
  refine hstage _ ?_ (mem_append_right _ (mem_singleton.mpr rfl))
  refine (waits_put_same hask.homed rfl).mpr ?_
  exact (hwaits f id token).mpr (.inl ⟨rfl, rfl, rfl⟩)

theorem inv_startAuth {authType : ℕ} (h : Inv sigOk p past none y) (hc : y.conns id = some conn)
    (ha : conn.server.auth = some a) (hchan : conn.server.chan = true)
    (hs : startAuth env y id conn a authType = some y') : Inv sigOk p past none y' := by
  have hwork := h.work (some id)
  have hsound := h.conns id conn hc nofun
  have hsome : conn.server.auth.isSome = true := by rw [ha]; rfl
  rw [startAuth] at hs
  split at hs
  · exact inv_fail hwork hc hsound.held hsome hchan (by decide) hs
  rename_i hinit
  simp only at hs
  split at hs
  · exact inv_fail hwork hc hsound.held hsome hchan (by decide) hs
  split at hs
  · rename_i err hadd
    exact inv_fail hwork hc hsound.held hsome hchan (addrequest_error hadd) hs
  · rename_i token comm hadd
    cases hs
    have hevents := (hsound.held.auth hsome).2.1
    exact inv_asked h hc hsome hchan (by decide) hadd rfl rfl
      ⟨id, conn.obj, hevents.append (.refl [_])⟩ nofun fun comm' hw hx =>
        .waiting rfl ((hsound.stage a ha).unsaved (not_not.mp hinit)) fun _ => ⟨token, hw, hx⟩

theorem inv_answerChallenge (h : Inv sigOk p past none y) (hc : y.conns id = some conn)
    (ha : conn.server.auth = some a) (hchan : conn.server.chan = true)
    (hs : answerChallenge env y id conn a buf = some y') : Inv sigOk p past none y' := by
  have hwork := h.work (some id)
  have hsound := h.conns id conn hc nofun
  have hsome : conn.server.auth.isSome = true := by rw [ha]; rfl
  have hfail : ∀ {a' : Auth Challenge} {error : ℕ}, error ≠ 0 → fail env y id conn a' error = some y' →
      Inv sigOk p past none y' := fun herr hf => inv_fail hwork hc hsound.held hsome hchan herr hf
  rw [answerChallenge] at hs
  split at hs
  · exact hfail (by decide) hs
  rename_i htype
  split at hs
  · exact hfail (by decide) hs
  rename_i c hsaved
  simp only at hs
  split at hs
  · exact hfail (by decide) hs
  split at hs
  · exact hfail (by decide) hs
  rename_i huid
  simp only [not_or, not_not] at htype huid
  split at hs
  · rename_i err hadd
    exact hfail (addrequest_error hadd) hs
  · rename_i token comm hadd
    cases hs
    -- a saved challenge comes from the master
    obtain ⟨mode, cert, hevents, hfor⟩ := (hsound.stage a ha).saved hsaved
    rw [← huid.1]
    generalize (buf.drop 20).take (u32 buf 12) = iv
    generalize (buf.drop (20 + u32 buf 12)).take (u32 buf 16) = sig
    exact inv_asked h hc hsome hchan (by decide) hadd rfl rfl
      ⟨id, conn.obj, mode, cert, c, iv, hevents.append (.refl [_]), hfor, rfl⟩ nofun fun comm' hw hx =>
        .verifying htype.2 rfl fun _ => ⟨token, iv, c.challenge, sig, hw, hx⟩

theorem inv_dispatchAuthdata (h : Inv sigOk p past none y) (hc : y.conns id = some conn)
    (hchan : conn.server.chan = true) (hs : dispatchAuthdata env y id conn buf = some y') :
    Inv sigOk p past none y' := by
  rw [dispatchAuthdata] at hs
  split at hs
  · cases hs
    exact h
  rename_i a ha
  have hsome : conn.server.auth.isSome = true := by rw [ha]; rfl
  have htouch := inv_touch h fun _ => ((h.conns id conn hc nofun).held.auth hsome).2.2
  have hsound := htouch.conns id conn hc nofun
  have hwork := htouch.work (some id)
  simp only at hs
  split at hs
  · exact inv_fail hwork hc hsound.held hsome hchan (by decide) hs
  split at hs
  · exact inv_startAuth htouch hc ha hchan hs
  split at hs
  · exact inv_answerChallenge htouch hc ha hchan hs
  · refine (inv_finish hwork hc hsound.held hsome hchan ⟨fun hst => AuthState.noConfusion hst, fun _ => ?_⟩ hs).1
    show einval ≠ 0
    decide

end Anoubis.Daemon.Auth

import Anoubis.Apn.Path
import Anoubis.Pe.Playground
import Anoubis.Proto.CommRuns

/-! Commits of playground files (`pe_playground_dispatch_commit`).

    A file is recorded in its playground by a scan request. A commit request comes from a client, gets its token in
    the session engine and is checked in the policy engine; the master opens the file, scans it and replies.

        client --> session engine --s2p--> policy engine --> master
                      token                 scantok     <--m2p-- reply (token)

    From the request to its reply `scantok` locks the owner of the playground. `outstanding` is the record of the
    requests that the master has and that were not replied to, with the owner of the playground. -/

namespace Anoubis.Pe.Commit

open Anoubis.Lib Anoubis.Proto Anoubis.Proto.PolicyComm List
open Anoubis.Apn (joinSlash joinSlash_cons joinSlash_nil GoodComp exists_joinSlash)

/-! ### The path -/

/-- The characters of `badcomp`; its NUL matches none. -/
def badcomp : Text := "/..".toList

/-- The loop over the path: `match` at its end, nothing on an error. -/
def matchPath : ℕ → Text → Option ℕ
  | n, [] => some n
  | n, c :: cs =>
    if c = '/' ∧ n ≠ 0 then none
    else matchPath (if badcomp[n]? = some c then n + 1 else 0) cs

/-- The path is absolute and has no hidden components. -/
def pathOk (path : Text) : Bool := path.head? = some '/' ∧ matchPath 0 path = some 0

/-! ### The policy engine -/

/-- struct anoubisd_msg_pgcommit. -/
structure PgCommit where
  token : ℕ
  pgid : ℕ
  dev : ℕ
  ino : ℕ
  authUid : ℕ
  ignoreRecommendedScanners : ℕ
  path : Text
  deriving DecidableEq

/-- struct anoubisd_msg_pgcommit_reply. -/
structure PgReply where
  token : ℕ
  error : ℕ
  deriving DecidableEq

/-- `struct playground`, as far as commits are concerned. -/
structure Playground where
  pgid : ℕ
  uid : ℕ
  scandev : ℕ
  scanino : ℕ
  scantok : ℕ
  deriving DecidableEq

/-- `pe_playground_find`. -/
def find (pgs : List Playground) (pgid : ℕ) : Option Playground := pgs.find? (fun pg => pg.pgid == pgid)

/-- A change of the playground that `pe_playground_find` finds. -/
def update (pgs : List Playground) (pgid : ℕ) (f : Playground → Playground) : List Playground :=
  modifyFirst (fun pg => pg.pgid == pgid) f pgs

/-- `pe_playground_dispatch_commit`: the error in the reply, or the message to the master. -/
def dispatchCommit (pgs : List Playground) (msg : PgCommit) : Except ℕ (PgCommit × List Playground) :=
  match find pgs msg.pgid with
  | none => .error esrch
  | some pg =>
    if msg.authUid ≠ 0 ∧ pg.uid ≠ msg.authUid then .error eperm
    else if msg.dev ≠ 0 ∨ msg.ino ≠ 0 ∨ pg.scandev = 0 ∨ pg.scanino = 0 then .error einval
    else if ∃ pg2 ∈ pgs, pg2.uid = pg.uid ∧ pg2.scantok ≠ 0 then .error ebusy
    else if pathOk msg.path = false then .error ebusy
    else
      .ok ({ msg with dev := pg.scandev, ino := pg.scanino },
        update pgs msg.pgid fun pg => { pg with scantok := msg.token })

/-- `pe_playground_dispatch_commitreply`. -/
def dispatchCommitreply (pgs : List Playground) (token : ℕ) : List Playground :=
  modifyFirst (fun pg => token == pg.scantok) (fun pg => { pg with scandev := 0, scanino := 0, scantok := 0 }) pgs

/-- `pe_playground_file_scanrequest`, where the file can be instantiated. -/
def fileScanrequest (pgs : List Playground) (pgid dev ino : ℕ) (path : Text) (uid : ℕ) : ℤ × List Playground :=
  if path = [] then (-(einval : ℤ), pgs)
  else
    let pgs := if find pgs pgid = none then ⟨pgid, uidDefault, 0, 0, 0⟩ :: pgs else pgs
    match find pgs pgid with
    | none => (-(esrch : ℤ), pgs)
    | some pg =>
      if uid ≠ 0 ∧ (pg.uid ≠ uid ∨ pg.uid = uidDefault) then (-(eperm : ℤ), pgs)
      else (0, update pgs pgid fun pg => { pg with scandev := dev, scanino := ino })

/-! ### Runs -/

/-- The engines and what is on its way between them. -/
structure Daemon where
  comm : Comm
  s2p : List PgCommit
  playgrounds : List Playground
  master : List PgCommit
  m2p : List PgReply
  p2s : List PgReply
  outstanding : List (ℕ × ℕ)
  deriving DecidableEq

inductive Event where
  /-- A request of a client reaches `dispatch_pgcommit` of the session engine. -/
  | client (chan server uid pgid ignore : ℕ) (payload : Text)
  /-- Another call on the table of open requests. -/
  | table (op : Op)
  /-- The policy engine takes the next request. -/
  | commit
  /-- The master replies to a request that it got. -/
  | answer (i error : ℕ)
  /-- The policy engine takes the next reply. -/
  | reply
  /-- A scan request of the kernel. -/
  | scanrequest (pgid dev ino : ℕ) (path : Text) (uid : ℕ)

/-- `dispatch_pgcommit` of the session engine. The last byte of the payload is set to NUL. -/
def sessionPgcommit (d : Daemon) (chan server uid pgid ignore : ℕ) (payload : Text) : Daemon :=
  if payload.length < 2 then d
  else match addrequest d.comm chan 3 (.reply 0 server) false with
    | .error _ => d
    | .ok (token, comm) =>
      let path := payload.dropLast.takeWhile (· ≠ '\x00')
      { d with comm := comm, s2p := d.s2p ++ [⟨token, pgid, 0, 0, uid, ignore, path⟩] }

/-- A request in the policy engine. -/
def policyCommit (d : Daemon) : Daemon :=
  match d.s2p with
  | [] => d
  | msg :: s2p =>
    match dispatchCommit d.playgrounds msg with
    | .error err => { d with s2p := s2p, p2s := d.p2s ++ [⟨msg.token, err⟩] }
    | .ok (out, pgs) =>
      let owner := ((find d.playgrounds msg.pgid).map Playground.uid).toList
      { d with
        s2p := s2p, playgrounds := pgs, master := d.master ++ [out],
        outstanding := owner.map (fun uid => (out.token, uid)) ++ d.outstanding }

/-- A reply in the policy engine. -/
def policyReply (d : Daemon) : Daemon :=
  match d.m2p with
  | [] => d
  | rep :: m2p =>
    { d with
      m2p := m2p, playgrounds := dispatchCommitreply d.playgrounds rep.token, p2s := d.p2s ++ [rep],
      outstanding := d.outstanding.filter fun r => r.1 ≠ rep.token }

def Daemon.step (d : Daemon) : Event → Daemon
  | .client chan server uid pgid ignore payload => sessionPgcommit d chan server uid pgid ignore payload
  | .table op => { d with comm := PolicyComm.step d.comm op }
  | .commit => policyCommit d
  | .answer i error =>
    match d.master[i]? with
    | none => d
    | some msg => { d with m2p := d.m2p ++ [⟨msg.token, error⟩] }
  | .reply => policyReply d
  | .scanrequest pgid dev ino path uid =>
    { d with playgrounds := (fileScanrequest d.playgrounds pgid dev ino path uid).2 }

/-- The start of the engines, with playgrounds that have no scan running. -/
def Daemon.start (pgs : List Playground) : Daemon :=
  ⟨.create, [], pgs.map fun pg => { pg with scantok := 0 }, [], [], [], []⟩

/-! ### The scan request on its slot -/

/-! ### The path is canonical -/

variable {x : Char} {c : Text} {n token : ℕ}

theorem not_mem_cons {y : Char} (h : x ∉ y :: c) : x ≠ y ∧ x ∉ c :=
  ⟨fun heq => h (heq ▸ mem_cons_self), fun hx => h (mem_cons_of_mem y hx)⟩

theorem matchPath_skip (hc : '/' ∉ c) (rest : Text) : matchPath 0 (c ++ rest) = matchPath 0 rest := by
  induction c with
  | nil => rfl
  | cons x c ih =>
    obtain ⟨hx, hc⟩ := not_mem_cons hc
    have hbad : badcomp[0]? = some '/' := rfl
    rw [cons_append, matchPath, if_neg (by simp), hbad, if_neg (fun h => hx (Option.some.inj h)), ih hc]

/-- Within the pattern a component must not end. -/
theorem matchPath_stuck (hn : n ≠ 0) (cs : List Text) : matchPath n (joinSlash cs) ≠ some 0 := by
  cases cs with
  | nil => exact fun h => hn (Option.some.inj h)
  | cons c cs =>
    rw [joinSlash_cons, matchPath, if_pos ⟨rfl, hn⟩]
    exact (Option.some_ne_none _).symm

/-- The next character of a component: the pattern goes on, or it is left to the next slash. -/
theorem matchPath_next (hx : x ≠ '/') (rest : Text) :
    matchPath n (x :: rest) = if badcomp[n]? = some x then matchPath (n + 1) rest else matchPath 0 rest := by
  rw [matchPath, if_neg (fun h => hx h.1)]
  split <;> rfl

theorem matchPath_comp (hc : '/' ∉ c) (cs : List Text) :
    matchPath 1 (c ++ joinSlash cs) = some 0 ↔ GoodComp c ∧ matchPath 0 (joinSlash cs) = some 0 := by
  cases c with
  | nil => exact iff_of_false (matchPath_stuck (by decide) cs) fun h => h.1.1 rfl
  | cons x c =>
    obtain ⟨hx, hc'⟩ := not_mem_cons hc
    rw [cons_append, matchPath_next (Ne.symm hx)]
    by_cases hdot : x = '.'
    · subst hdot
      have hone : badcomp[1]? = some '.' := rfl
      rw [if_pos hone]
      cases c with
      | nil => exact iff_of_false (matchPath_stuck (by decide) cs) fun h => h.1.2.2.1 rfl
      | cons y c =>
        obtain ⟨hy, hc''⟩ := not_mem_cons hc'
        rw [cons_append, matchPath_next (Ne.symm hy)]
        by_cases hdot : y = '.'
        · subst hdot
          have htwo : badcomp[1 + 1]? = some '.' := rfl
          rw [if_pos htwo]
          cases c with
          | nil => exact iff_of_false (matchPath_stuck (by decide) cs) fun h => h.1.2.2.2 rfl
          | cons z c =>
            obtain ⟨hz, hc₃⟩ := not_mem_cons hc''
            have hend : badcomp[3]? = none := rfl
            rw [cons_append, matchPath_next (Ne.symm hz), hend, if_neg (by simp), matchPath_skip hc₃]
            exact (and_iff_right ⟨by simp, hc, by simp, by simp⟩).symm
        · have hbad : badcomp[2]? = some '.' := rfl
          rw [hbad, if_neg (fun h => hdot (Option.some.inj h).symm), matchPath_skip hc'']
          exact (and_iff_right ⟨by simp, hc, by simp, by simp [hdot]⟩).symm
    · have hbad : badcomp[1]? = some '.' := rfl
      rw [hbad, if_neg (fun h => hdot (Option.some.inj h).symm), matchPath_skip hc']
      exact (and_iff_right ⟨by simp, hc, by simp [hdot], by simp [hdot]⟩).symm

theorem matchPath_joinSlash {cs : List Text} (hcs : ∀ c ∈ cs, '/' ∉ c) :
    matchPath 0 (joinSlash cs) = some 0 ↔ ∀ c ∈ cs, GoodComp c := by
  induction cs with
  | nil => exact iff_of_true rfl fun c hc => absurd hc not_mem_nil
  | cons c cs ih =>
    have hbad : badcomp[0]? = some '/' := rfl
    rw [joinSlash_cons, matchPath, if_neg (by simp), hbad, if_pos rfl, matchPath_comp (hcs c mem_cons_self),
      ih fun d hd => hcs d (mem_cons_of_mem _ hd), forall_mem_cons]

/-- The path is absolute, without an empty component, `.` or `..` and without a slash at its end. -/
def Plain (path : Text) : Prop := ∃ cs, cs ≠ [] ∧ (∀ c ∈ cs, GoodComp c) ∧ path = joinSlash cs

theorem pathOk_iff {path : Text} : pathOk path = true ↔ Plain path := by
  rw [pathOk, decide_eq_true_iff]
  constructor
  · rintro ⟨hhead, hmatch⟩
    obtain ⟨c, cs, rfl, hc, hcs⟩ := exists_joinSlash path
    -- nothing stands before the first slash
    cases c with
    | cons x c => exact absurd (by simpa using hhead) fun h : x = '/' => hc (by simp [h])
    | nil =>
      refine ⟨cs, ?_, (matchPath_joinSlash hcs).mp hmatch, rfl⟩
      rintro rfl
      cases hhead
  · rintro ⟨cs, hne, hcs, rfl⟩
    refine ⟨?_, (matchPath_joinSlash fun c hc => (hcs c hc).2.1).mpr hcs⟩
    cases cs with
    | nil => exact absurd rfl hne
    | cons c cs => rfl

/-! ### The lock -/

/-- The scans that the playgrounds know of: token and owner. -/
def busy (pgs : List Playground) : List (ℕ × ℕ) :=
  (pgs.map fun pg => (pg.scantok, pg.uid)).filter fun r => r.1 ≠ 0

variable {pgs pgs' : List Playground} {pg : Playground} {d : Daemon} {msg out : PgCommit}

theorem mem_busy {uid : ℕ} : uid ∈ (busy pgs).map Prod.snd ↔ ∃ pg ∈ pgs, pg.uid = uid ∧ pg.scantok ≠ 0 := by
  simp only [busy, mem_map, mem_filter, decide_eq_true_eq]
  constructor
  · rintro ⟨r, ⟨⟨pg, hpg, rfl⟩, htok⟩, rfl⟩
    exact ⟨pg, hpg, rfl, htok⟩
  · rintro ⟨pg, hpg, rfl, htok⟩
    exact ⟨_, ⟨⟨pg, hpg, rfl⟩, htok⟩, rfl⟩

theorem busy_cons (pg : Playground) (pgs : List Playground) :
    busy (pg :: pgs) = if pg.scantok = 0 then busy pgs else (pg.scantok, pg.uid) :: busy pgs := by
  rw [busy, map_cons, filter_cons]
  by_cases h : pg.scantok = 0
  · rw [if_pos h, if_neg (by simp [h])]
    rfl
  · rw [if_neg h, if_pos (by simp [h])]
    rfl

theorem busy_perm (h : pgs.Perm pgs') : (busy pgs).Perm (busy pgs') := (h.map _).filter _

/-- A change that keeps token and owner. -/
theorem busy_modifyFirst {f : Playground → Playground} (hf : ∀ pg, (f pg).scantok = pg.scantok ∧ (f pg).uid = pg.uid)
    (p : Playground → Bool) (pgs : List Playground) : busy (modifyFirst p f pgs) = busy pgs := by
  rw [busy, map_modifyFirst (fun pg => by rw [(hf pg).1, (hf pg).2]), busy]

/-- A playground without a scan gets one. -/
theorem busy_lock (hfind : find pgs msg.pgid = some pg) (hidle : pg.scantok = 0) (htok : token ≠ 0) :
    (busy (update pgs msg.pgid fun pg => { pg with scantok := token })).Perm ((token, pg.uid) :: busy pgs) := by
  obtain ⟨rest, hold, hnew⟩ := exists_modifyFirst hfind fun pg => { pg with scantok := token }
  refine (busy_perm hnew).trans ?_
  rw [busy_cons, if_neg htok]
  refine List.Perm.cons _ ?_
  have hrest := busy_perm hold
  rw [busy_cons, if_pos hidle] at hrest
  exact hrest.symm

/-- The scan of a token ends, and no other. -/
theorem busy_unlock (htok : token ≠ 0) (hnodup : ((busy pgs).map Prod.fst).Nodup) :
    (busy (dispatchCommitreply pgs token)).Perm ((busy pgs).filter fun r => r.1 ≠ token) := by
  cases hfind : pgs.find? fun pg => token == pg.scantok with
  | none =>
    have hother : ∀ r ∈ busy pgs, r.1 ≠ token := by
      intro r hr heq
      obtain ⟨pg, hpg, rfl⟩ := mem_map.mp (mem_filter.mp hr).1
      exact absurd (beq_iff_eq.mpr heq.symm) (find?_eq_none.mp hfind pg hpg)
    rw [dispatchCommitreply, modifyFirst_eq_self hfind, filter_eq_self.mpr fun r hr => by simpa using hother r hr]
  | some pg =>
    have heq : token = pg.scantok := by simpa using find?_some hfind
    obtain ⟨rest, hold, hnew⟩ := exists_modifyFirst hfind
      fun pg => { pg with scandev := 0, scanino := 0, scantok := 0 }
    have hbusy := busy_perm hold
    rw [busy_cons, ← heq, if_neg htok] at hbusy
    have htail : ∀ r ∈ busy rest, r.1 ≠ token := by
      intro r hr hr'
      have hnd := (hbusy.map Prod.fst).nodup_iff.mp hnodup
      rw [map_cons, nodup_cons] at hnd
      exact hnd.1 (mem_map.mpr ⟨r, hr, hr'⟩)
    refine (busy_perm hnew).trans ?_
    rw [busy_cons, if_pos rfl]
    refine List.Perm.trans ?_ (hbusy.filter _).symm
    rw [filter_cons_of_neg (by simp), filter_eq_self.mpr fun r hr => by simpa using htail r hr]

theorem busy_scanrequest (pgs : List Playground) (pgid dev ino : ℕ) (path : Text) (uid : ℕ) :
    busy (fileScanrequest pgs pgid dev ino path uid).2 = busy pgs := by
  rw [fileScanrequest]
  split
  · rfl
  · -- a new playground has no scan
    have hnew : busy (if find pgs pgid = none then ⟨pgid, uidDefault, 0, 0, 0⟩ :: pgs else pgs) = busy pgs := by
      split
      · rw [busy_cons, if_pos rfl]
      · rfl
    dsimp only
    generalize (if find pgs pgid = none then ⟨pgid, uidDefault, 0, 0, 0⟩ :: pgs else pgs) = pgs' at hnew
    cases find pgs' pgid with
    | none => exact hnew
    | some pg =>
      dsimp only
      split
      · exact hnew
      · refine Eq.trans ?_ hnew
        exact busy_modifyFirst (f := fun pg => { pg with scandev := dev, scanino := ino }) (fun _ => ⟨rfl, rfl⟩) _ pgs'

/-! ### One request -/

/-- The requester may commit, a file was recorded, no scan of the owner is running and the path is plain. -/
def Allowed (d : Daemon) (msg : PgCommit) : Prop :=
  ∃ pg, find d.playgrounds msg.pgid = some pg ∧ (msg.authUid = 0 ∨ msg.authUid = pg.uid) ∧
    (pg.scandev ≠ 0 ∧ pg.scanino ≠ 0) ∧ pg.uid ∉ d.outstanding.map Prod.snd ∧ Plain msg.path

/-- A request that is forwarded, and what becomes of it. -/
theorem dispatchCommit_eq_ok (hmsg : msg.dev = 0 ∧ msg.ino = 0) : dispatchCommit pgs msg = .ok (out, pgs') ↔
      ∃ pg, find pgs msg.pgid = some pg ∧ (msg.authUid = 0 ∨ msg.authUid = pg.uid) ∧
        (pg.scandev ≠ 0 ∧ pg.scanino ≠ 0) ∧ pg.uid ∉ (busy pgs).map Prod.snd ∧ Plain msg.path ∧
        out = { msg with dev := pg.scandev, ino := pg.scanino } ∧
        pgs' = update pgs msg.pgid fun pg => { pg with scantok := msg.token } := by
  rw [dispatchCommit]
  cases find pgs msg.pgid with
  | none => simp
  | some pg =>
    have hbusy : (∃ pg2 ∈ pgs, pg2.uid = pg.uid ∧ pg2.scantok ≠ 0) ↔ pg.uid ∈ (busy pgs).map Prod.snd := mem_busy.symm
    have hok : pathOk msg.path = false ↔ ¬ Plain msg.path := by rw [← pathOk_iff, Bool.not_eq_true]
    have hauth : (msg.authUid ≠ 0 ∧ pg.uid ≠ msg.authUid) ↔ ¬ (msg.authUid = 0 ∨ msg.authUid = pg.uid) := by
      rw [not_or, ne_comm (a := pg.uid)]
    have hrec : (msg.dev ≠ 0 ∨ msg.ino ≠ 0 ∨ pg.scandev = 0 ∨ pg.scanino = 0) ↔ ¬ (pg.scandev ≠ 0 ∧ pg.scanino ≠ 0) := by
      simp only [hmsg.1, hmsg.2, ne_eq, not_true_eq_false, false_or, not_and_or, not_not]
    constructor
    · intro h
      dsimp only at h
      by_cases h1 : msg.authUid ≠ 0 ∧ pg.uid ≠ msg.authUid
      · rw [if_pos h1] at h
        cases h
      by_cases h2 : msg.dev ≠ 0 ∨ msg.ino ≠ 0 ∨ pg.scandev = 0 ∨ pg.scanino = 0
      · rw [if_neg h1, if_pos h2] at h
        cases h
      by_cases h3 : ∃ pg2 ∈ pgs, pg2.uid = pg.uid ∧ pg2.scantok ≠ 0
      · rw [if_neg h1, if_neg h2, if_pos h3] at h
        cases h
      by_cases h4 : pathOk msg.path = false
      · rw [if_neg h1, if_neg h2, if_neg h3, if_pos h4] at h
        cases h
      · rw [if_neg h1, if_neg h2, if_neg h3, if_neg h4] at h
        obtain ⟨hout, hpgs⟩ := Prod.mk.inj (Except.ok.inj h)
        exact ⟨pg, rfl, not_not.mp (hauth.not.mp h1), not_not.mp (hrec.not.mp h2), hbusy.not.mp h3,
          not_not.mp (hok.not.mp h4), hout.symm, hpgs.symm⟩
    · rintro ⟨pg', hpg, h1, h2, h3, h4, rfl, rfl⟩
      cases hpg
      dsimp only
      rw [if_neg (hauth.not.mpr (not_not.mpr h1)), if_neg (hrec.not.mpr (not_not.mpr h2)), if_neg (hbusy.not.mpr h3),
        if_neg (hok.not.mpr (not_not.mpr h4))]

/-! ### The run -/

/-- The locks are the scans that are outstanding, one for an owner, and tokens are not used twice. -/
structure Inv (d : Daemon) : Prop where
  locks : (busy d.playgrounds).Perm d.outstanding
  owners : (d.outstanding.map Prod.snd).Nodup
  tokens : (d.outstanding.map Prod.fst ++ d.s2p.map PgCommit.token).Nodup
  bound : ∀ t ∈ d.outstanding.map Prod.fst ++ d.s2p.map PgCommit.token, t ≤ d.comm.nexttoken
  session : ∀ msg ∈ d.s2p, msg.token ≠ 0 ∧ msg.dev = 0 ∧ msg.ino = 0
  master : ∀ msg ∈ d.master, msg.token ≠ 0
  replies : ∀ rep ∈ d.m2p, rep.token ≠ 0

theorem inv_start (pgs : List Playground) : Inv (.start pgs) := by
  have hidle : busy (pgs.map fun pg => { pg with scantok := 0 }) = [] := by
    rw [busy, map_map, filter_eq_nil_iff]
    intro r hr
    obtain ⟨pg, -, rfl⟩ := mem_map.mp hr
    simp
  exact ⟨by rw [Daemon.start, hidle], by simp [Daemon.start], by simp [Daemon.start], by simp [Daemon.start],
    by simp [Daemon.start], by simp [Daemon.start], by simp [Daemon.start]⟩

/-- A token that is new is larger than the old ones. -/
theorem addrequest_token {c c' : Comm} {chan : ℕ} {callback : Callback}
    (h : addrequest c chan 3 callback false = .ok (token, c')) :
    token = c.nexttoken + 1 ∧ c'.nexttoken = c.nexttoken + 1 := by
  rw [addrequest] at h
  split at h
  · rw [if_pos (by decide)] at h
    cases h
  · cases h
    exact ⟨rfl, rfl⟩

theorem nexttoken_addrequest {c : Comm} (chan flags : ℕ) (callback : Callback) (dispatch : Bool) {r : ℕ × Comm}
    (h : addrequest c chan flags callback dispatch = .ok r) : c.nexttoken ≤ r.2.nexttoken := by
  rw [addrequest] at h
  split at h
  · split at h
    · cases h
    · split at h
      · cases h
      · rw [← Except.ok.inj h]
  · rw [← Except.ok.inj h]
    exact Nat.le_succ _

/-- The counter of the tokens does not go back. -/
theorem nexttoken_step (c : Comm) (op : Op) : c.nexttoken ≤ (PolicyComm.step c op).nexttoken := by
  cases op with
  | addrequest chan flags callback dispatch =>
    rw [PolicyComm.step]
    cases h : addrequest c chan flags callback dispatch with
    | error e => exact le_rfl
    | ok r => exact nexttoken_addrequest chan flags callback dispatch h
  | process m uid chan =>
    rw [PolicyComm.step]
    cases h : processBegin c m uid chan with
    | error e => exact le_rfl
    | ok c' =>
      obtain ⟨token, c₁, hadd, rfl⟩ := processBegin_eq_ok h
      exact nexttoken_addrequest chan m.flags _ true hadd
  | answer token error data fin =>
    rw [PolicyComm.step]
    cases h : answer c token error data fin with
    | error e => exact le_rfl
    | ok c' =>
      rw [answer] at h
      split at h
      · cases h
      split at h
      · cases h
      · rw [← Except.ok.inj h]
        exact le_rfl
  | destroy chan =>
    rw [PolicyComm.step, destroy]
    split
    · exact le_rfl
    · dsimp only
      split <;> exact le_rfl

theorem inv_client (h : Inv d) (chan server uid pgid ignore : ℕ) (payload : Text) :
    Inv (sessionPgcommit d chan server uid pgid ignore payload) := by
  rw [sessionPgcommit]
  split
  · exact h
  cases hadd : addrequest d.comm chan 3 (.reply 0 server) false with
  | error e => exact h
  | ok r =>
    obtain ⟨token, comm⟩ := r
    obtain ⟨rfl, hnext⟩ := addrequest_token hadd
    -- the token is larger than those in use
    have hnew : ∀ t ∈ d.outstanding.map Prod.fst ++ d.s2p.map PgCommit.token, t ≠ d.comm.nexttoken + 1 :=
      fun t ht => ne_of_lt (Nat.lt_succ_of_le (h.bound t ht))
    refine ⟨h.locks, h.owners, ?_, ?_, ?_, h.master, h.replies⟩
    · dsimp only
      rw [map_append, ← append_assoc]
      refine nodup_append.mpr ⟨h.tokens, by simp, fun t ht t' ht' => ?_⟩
      rw [map_singleton, mem_singleton] at ht'
      rw [ht']
      exact hnew t ht
    · intro t ht
      dsimp only at ht ⊢
      rw [map_append, ← append_assoc] at ht
      rw [hnext]
      rcases mem_append.mp ht with ht | ht
      · exact Nat.le_succ_of_le (h.bound t ht)
      · rw [map_singleton, mem_singleton] at ht
        exact le_of_eq ht
    · intro msg hmsg
      rcases mem_append.mp hmsg with hmsg | hmsg
      · exact h.session msg hmsg
      · rw [mem_singleton.mp hmsg]
        exact ⟨Nat.succ_ne_zero _, rfl, rfl⟩

theorem inv_commit (h : Inv d) : Inv (policyCommit d) := by
  rw [policyCommit]
  cases hq : d.s2p with
  | nil => exact h
  | cons msg s2p =>
    have hsession := h.session
    have htokens := h.tokens
    have hbound := h.bound
    rw [hq] at hsession htokens hbound
    obtain ⟨htok, hdev, hino⟩ := hsession msg mem_cons_self
    dsimp only
    cases hd : dispatchCommit d.playgrounds msg with
    | error err =>
      refine ⟨h.locks, h.owners, ?_, ?_, fun m hm => hsession m (mem_cons_of_mem _ hm), h.master, h.replies⟩
      · refine htokens.sublist ?_
        exact List.Sublist.append (.refl _) (sublist_cons_self _ _)
      · intro t ht
        refine hbound t (List.Sublist.subset ?_ ht)
        exact List.Sublist.append (.refl _) (sublist_cons_self _ _)
    | ok r =>
      obtain ⟨out, pgs'⟩ := r
      obtain ⟨pg, hfind, -, -, hfree, -, rfl, rfl⟩ := (dispatchCommit_eq_ok ⟨hdev, hino⟩).mp hd
      have hidle : pg.scantok = 0 := by
        refine Classical.byContradiction fun hne => hfree (mem_busy.mpr ⟨pg, ?_, rfl, hne⟩)
        exact mem_of_find?_eq_some hfind
      have hmove : (msg.token :: (d.outstanding.map Prod.fst ++ s2p.map PgCommit.token)).Perm
          (d.outstanding.map Prod.fst ++ (msg :: s2p).map PgCommit.token) := perm_middle.symm
      rw [hfind]
      refine ⟨?_, ?_, hmove.nodup_iff.mpr htokens, fun t ht => hbound t (hmove.subset ht),
        fun m hm => hsession m (mem_cons_of_mem _ hm), ?_, h.replies⟩
      · exact (busy_lock hfind hidle htok).trans (h.locks.cons _)
      · refine nodup_cons.mpr ⟨fun hmem => hfree ?_, h.owners⟩
        exact ((h.locks.map Prod.snd).mem_iff).mpr hmem
      · intro m hm
        rcases mem_append.mp hm with hm | hm
        · exact h.master m hm
        · rw [mem_singleton.mp hm]
          exact htok

theorem inv_reply (h : Inv d) : Inv (policyReply d) := by
  rw [policyReply]
  cases hq : d.m2p with
  | nil => exact h
  | cons rep m2p =>
    have hreplies := h.replies
    rw [hq] at hreplies
    have hnodup : ((busy d.playgrounds).map Prod.fst).Nodup :=
      (h.locks.map Prod.fst).nodup_iff.mpr (nodup_append.mp h.tokens).1
    have hsub : (d.outstanding.filter fun r => r.1 ≠ rep.token).Sublist d.outstanding := filter_sublist
    have htok : ((d.outstanding.filter fun r => r.1 ≠ rep.token).map Prod.fst ++ d.s2p.map PgCommit.token).Sublist
        (d.outstanding.map Prod.fst ++ d.s2p.map PgCommit.token) :=
      List.Sublist.append (hsub.map _) (.refl _)
    refine ⟨?_, h.owners.sublist (hsub.map _), h.tokens.sublist htok, fun t ht => h.bound t (htok.subset ht),
      h.session, h.master, fun r hr => hreplies r (mem_cons_of_mem _ hr)⟩
    exact (busy_unlock (hreplies rep mem_cons_self) hnodup).trans (h.locks.filter _)

theorem inv_step (h : Inv d) (e : Event) : Inv (d.step e) := by
  cases e with
  | client chan server uid pgid ignore payload => exact inv_client h chan server uid pgid ignore payload
  | table op =>
    exact ⟨h.locks, h.owners, h.tokens, fun t ht => le_trans (h.bound t ht) (nexttoken_step d.comm op), h.session,
      h.master, h.replies⟩
  | commit => exact inv_commit h
  | answer i error =>
    rw [Daemon.step]
    cases hmsg : d.master[i]? with
    | none => exact h
    | some msg =>
      refine ⟨h.locks, h.owners, h.tokens, h.bound, h.session, h.master, fun rep hrep => ?_⟩
      rcases mem_append.mp hrep with hrep | hrep
      · exact h.replies rep hrep
      · rw [mem_singleton.mp hrep]
        exact h.master msg (mem_of_getElem? hmsg)
  | reply => exact inv_reply h
  | scanrequest pgid dev ino path uid =>
    exact ⟨by rw [Daemon.step, busy_scanrequest]; exact h.locks, h.owners, h.tokens, h.bound, h.session, h.master,
      h.replies⟩

theorem inv_run (h : Inv d) (es : List Event) : Inv (es.foldl Daemon.step d) := by
  induction es generalizing d with
  | nil => exact h
  | cons e es ih => exact ih (inv_step h e)

/-- What holds of a state: the next request is forwarded if it is allowed, with the recorded file and its lock; at
    most one scan is outstanding for an owner; an owner is locked until the reply to it. -/
structure Serialised (d : Daemon) : Prop where
  forwards : ∀ msg ∈ d.s2p.head?, (∃ out pgs, dispatchCommit d.playgrounds msg = .ok (out, pgs)) ↔ Allowed d msg
  names : ∀ msg ∈ d.s2p.head?, ∀ out pgs, dispatchCommit d.playgrounds msg = .ok (out, pgs) →
    ∃ pg, find d.playgrounds msg.pgid = some pg ∧ out = { msg with dev := pg.scandev, ino := pg.scanino } ∧
      (d.step .commit).outstanding = (msg.token, pg.uid) :: d.outstanding
  one : (d.outstanding.map Prod.snd).Nodup
  locked : ∀ uid, (∃ pg ∈ d.playgrounds, pg.uid = uid ∧ pg.scantok ≠ 0) ↔ ∃ token, (token, uid) ∈ d.outstanding
  ends : ∀ rep ∈ d.m2p.head?, (d.step .reply).outstanding = d.outstanding.filter fun r => r.1 ≠ rep.token

theorem Inv.serialised (h : Inv d) : Serialised d := by
  have howner : ∀ uid, uid ∈ (busy d.playgrounds).map Prod.snd ↔ uid ∈ d.outstanding.map Prod.snd :=
    fun uid => (h.locks.map Prod.snd).mem_iff
  refine ⟨fun msg hmsg => ?_, fun msg hmsg out pgs hd => ?_, h.owners, fun uid => ?_, fun rep hrep => ?_⟩
  · have hnew := (h.session msg (mem_of_mem_head? hmsg)).2
    constructor
    · rintro ⟨out, pgs, hd⟩
      obtain ⟨pg, hfind, hauth, hrec, hfree, hplain, -, -⟩ := (dispatchCommit_eq_ok hnew).mp hd
      exact ⟨pg, hfind, hauth, hrec, (howner pg.uid).not.mp hfree, hplain⟩
    · rintro ⟨pg, hfind, hauth, hrec, hfree, hplain⟩
      exact ⟨_, _, (dispatchCommit_eq_ok hnew).mpr
        ⟨pg, hfind, hauth, hrec, (howner pg.uid).not.mpr hfree, hplain, rfl, rfl⟩⟩
  · obtain ⟨s2p, hq⟩ := head?_eq_some_iff.mp hmsg
    obtain ⟨pg, hfind, -, -, -, -, hout, -⟩ :=
      (dispatchCommit_eq_ok (h.session msg (mem_of_mem_head? hmsg)).2).mp hd
    refine ⟨pg, hfind, hout, ?_⟩
    rw [Daemon.step, policyCommit, hq]
    dsimp only
    rw [hd, hfind, hout]
    rfl
  · rw [← mem_busy, howner, mem_map]
    exact ⟨fun ⟨r, hr, heq⟩ => ⟨r.1, heq ▸ hr⟩, fun ⟨token, hr⟩ => ⟨_, hr, rfl⟩⟩
  · obtain ⟨m2p, hq⟩ := head?_eq_some_iff.mp hrep
    rw [Daemon.step, policyReply, hq]

/-- Commits are authorised and serialised, in every state of every run. -/
theorem commits_serialised (pgs : List Playground) (es : List Event) :
    Serialised (es.foldl Daemon.step (.start pgs)) :=
  (inv_run (inv_start pgs) es).serialised

end Anoubis.Pe.Commit

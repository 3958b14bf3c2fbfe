import Anoubis.Pe.State
import Mathlib.Algebra.Order.Ring.Nat

/-! Replies to list requests (`dispatch_list_request`, `amsg_list.c` and the functions that list).

    The records of a list go into messages of at most 8000 bytes. One that does not fit starts the next message:

        START  r₁ r₂ r₃        r₄ r₅        END  r₆

    The name of a playground file comes in parts. What is already in a full message moves along. -/

namespace Anoubis.Pe.ListReply

open Anoubis.Apn List

/-! ### Messages -/

/-- ANOUBIS_REC_NOTYPE and the other types. -/
inductive Rectype where
  | notype
  | pglist
  | pgfilelist
  | proclist

/-- Anoubis_PgInfoRecord, Anoubis_PgFileRecord and Anoubis_ProcRecord without `reclen`. -/
inductive Item where
  | pginfo (uid pgid starttime nrprocs nrfiles : ℕ) (path : Text)
  | pgfile (pgid dev ino : ℕ) (path : List UInt8)
  | proc (pid taskcookie pgid uid : ℕ) (alfrule sbrule ctxrule : ByPrio ℕ) (secureexec : Bool)
      (idents : List (Option Ident))

/-- struct amsg_list_context and its message; a record is its `reclen` and the rest. -/
structure AmsgListContext where
  token : ℕ
  rectype : Rectype
  start : Bool
  fin : Bool
  error : ℕ
  len : ℕ
  curlen : ℕ
  nrec : ℕ
  records : List (ℕ × Item)

abbrev Queue := List AmsgListContext

/-- An error number. -/
abbrev Errno := { e : ℕ // e ≠ 0 }

/-- `amsg_list_init`; without memory the process ends. -/
def amsgListInit (token : ℕ) (rectype : Rectype) : AmsgListContext := ⟨token, rectype, true, false, 0, 16, 32, 0, []⟩

/-- `abuf_length(ctx->buf)`. -/
def AmsgListContext.room (ctx : AmsgListContext) : ℕ := 8000 - ctx.curlen

/-- `amsg_list_send`. -/
def amsgListSend (ctx : AmsgListContext) (q : Queue) : Queue := q ++ [ctx]

/-- `amsg_list_addrecord`. -/
def amsgListAddrecord (ctx : AmsgListContext) (r : ℕ × Item) : AmsgListContext :=
  { ctx with records := ctx.records ++ [r], curlen := ctx.curlen + r.1, nrec := ctx.nrec + 1, len := ctx.len + r.1 }

/-- The message that is filled and those that were sent. -/
structure Out where
  ctx : AmsgListContext
  q : Queue

/-- The message is sent, and there is a new one without flags. -/
def Out.renew (s : Out) : Out :=
  ⟨{ amsgListInit s.ctx.token s.ctx.rectype with start := false }, amsgListSend s.ctx s.q⟩

/-- The end of the functions that list: an error, or the last message. -/
def finish : Except (Errno × Queue) Out → ℕ × Queue
  | .error (e, q) => (e, q)
  | .ok s => (0, amsgListSend { s.ctx with fin := true } s.q)

/-- Multiples of eight. -/
def align8 (n : ℕ) : ℕ := (n + 7) / 8 * 8

/-! ### Playgrounds and processes -/

/-- The body of the loops of `pe_playground_send_pglist` and `pe_proc_send_pslist`. -/
def addRecord (s : Out) (r : ℕ × Item) : Except (Errno × Queue) Out :=
  let s := if s.ctx.room < r.1 then s.renew else s
  if s.ctx.room < r.1 then .error (⟨14, by decide⟩, s.q) else .ok ⟨amsgListAddrecord s.ctx r, s.q⟩

def sendList (token : ℕ) (rectype : Rectype) (rs : List (ℕ × Item)) (q : Queue) : ℕ × Queue :=
  finish (rs.foldlM addRecord ⟨amsgListInit token rectype, q⟩)

/-- What `read` returns: an error, or bytes; no bytes are the end of the file. -/
abbrev Read := Except Errno (List UInt8)

/-- An entry of the directory of a playground: what `sscanf` makes of the name, and the file. -/
structure Dirent where
  ids : Option (ℕ × ℕ)
  file : Except Errno (List Read)

/-- struct playground. -/
structure Playground where
  pgid : ℕ
  uid : ℕ
  starttime : ℕ
  nrprocs : ℕ
  nrfiles : ℕ
  fullname : Option Text
  dir : Except Errno (List Dirent)

def pgRecord (pg : Playground) : ℕ × Item :=
  let path := pg.fullname.getD []
  (align8 (33 + path.length), .pginfo pg.uid pg.pgid pg.starttime pg.nrprocs pg.nrfiles path)

def pgRecords (playgrounds : List Playground) (pgid : ℕ) : List (ℕ × Item) :=
  (playgrounds.filter fun pg => pgid = 0 ∨ pg.pgid = pgid).map pgRecord

/-- `pe_playground_send_pglist`. -/
def pePlaygroundSendPglist (playgrounds : List Playground) (token pgid : ℕ) (q : Queue) : ℕ × Queue :=
  sendList token .pglist (pgRecords playgrounds pgid) q

/-- `pident_size`. -/
def pidentSize (pident : Option Ident) : ℕ := 33 + ((pident.bind Ident.pathhint).getD []).length

def procRecord (pid : ℕ) (proc : Proc) : ℕ × Item :=
  let rule (f : Ctx → Option Block) (i : Prio) := ((((proc.context.get i).bind f).map Block.id).getD 0)
  let rules (f : Ctx → Option Block) : ByPrio ℕ := ⟨rule f .admin, rule f .user1⟩
  let idents := [some proc.ident, proc.context.admin.map Ctx.ident, proc.context.user1.map Ctx.ident]
  (align8 (53 + (idents.map pidentSize).sum), .proc pid proc.taskCookie proc.pgid proc.uid (rules Ctx.alfrule)
    (rules Ctx.sbrule) (rules Ctx.ctxrule) proc.secureexec idents)

def procRecords (tracker : List (ℕ × Proc)) (haveTaskTracking : Bool) (uid : ℕ) : List (ℕ × Item) :=
  (tracker.filter fun p => ¬(p.2.threads = 0 ∧ haveTaskTracking) ∧ p.2.uid = uid).map fun p => procRecord p.1 p.2

/-- `pe_proc_send_pslist`. -/
def peProcSendPslist (tracker : List (ℕ × Proc)) (haveTaskTracking : Bool) (token uid authUid : ℕ) (q : Queue) :
    ℕ × Queue :=
  if uid ≠ authUid ∧ authUid ≠ 0 then (1, q)
  else sendList token .proclist (procRecords tracker haveTaskTracking uid) q

/-! ### Files -/

/-- A record that is not complete: `recoff` and the path so far. -/
structure Partial where
  out : Out
  recoff : ℕ
  path : List UInt8

/-- The parts of a read buffer, with whether there is a NUL at the end. -/
def pieces : List UInt8 → List (List UInt8 × Bool)
  | [] => []
  | b :: bs =>
    if b = 0 then ([0], true) :: pieces bs
    else match pieces bs with
      | [] => [([b], false)]
      | (p, c) :: ps => (b :: p, c) :: ps

/-- The rounds of the loop of `pe_playground_send_onefile` for one part; `none` where there are more. -/
def putPiece (pgid dev ino : ℕ) (piece : List UInt8 × Bool) : ℕ → Partial → Option Partial
  | 0, _ => none
  | rounds + 1, s =>
    let headlen := if s.recoff ≠ 0 then 0 else 32
    if s.out.ctx.room < s.recoff + headlen + piece.1.length then
      putPiece pgid dev ino piece rounds { s with out := s.out.renew }
    else
      let recoff := s.recoff + headlen + piece.1.length
      let path := s.path ++ piece.1
      if piece.2 then
        let recoff := if align8 recoff ≤ s.out.ctx.room then align8 recoff else recoff
        some ⟨⟨amsgListAddrecord s.out.ctx (recoff, .pgfile pgid dev ino path), s.out.q⟩, 0, []⟩
      else some ⟨s.out, recoff, path⟩

/-- `pe_playground_send_onefile`. -/
def pePlaygroundSendOnefile (rounds pgid dev ino : ℕ) : List Read → Partial → Option (Except (Errno × Queue) Out)
  | [], s => some (.ok s.out)
  | .error e :: _, s => some (.error (e, s.out.q))
  | .ok [] :: _, s => some (.ok s.out)
  | .ok buf :: reads, s =>
    ((pieces buf).foldlM (fun s p => putPiece pgid dev ino p rounds s) s).bind
      (pePlaygroundSendOnefile rounds pgid dev ino reads)

/-- The loop of `pe_playground_send_filelist`. -/
def sendFiles (rounds pgid : ℕ) : List Dirent → Out → Option (Except (Errno × Queue) Out)
  | [], s => some (.ok s)
  | ⟨none, _⟩ :: ds, s => sendFiles rounds pgid ds s
  | ⟨some _, .error e⟩ :: _, s => some (.error (e, s.q))
  | ⟨some (dev, ino), .ok reads⟩ :: ds, s =>
    (pePlaygroundSendOnefile rounds pgid dev ino reads ⟨s, 0, []⟩).bind fun
      | .error e => some (.error e)
      | .ok s => sendFiles rounds pgid ds s

/-- The playground with `pgid` and its directory. -/
def playgroundDir (playgrounds : List Playground) (pgid authUid : ℕ) : Except Errno (List Dirent) :=
  match playgrounds.find? fun pg => pg.pgid = pgid with
  | none => .error ⟨3, by decide⟩
  | some pg => if pg.uid ≠ authUid ∧ authUid ≠ 0 then .error ⟨1, by decide⟩ else pg.dir

/-- `pe_playground_send_filelist`. -/
def pePlaygroundSendFilelist (rounds : ℕ) (playgrounds : List Playground) (token pgid authUid : ℕ) (q : Queue) :
    Option (ℕ × Queue) :=
  match playgroundDir playgrounds pgid authUid with
  | .error e => some (e, q)
  | .ok ds => (sendFiles rounds pgid ds ⟨amsgListInit token .pgfilelist, q⟩).map finish

/-! ### Requests -/

/-- What the lists are made of. -/
structure Tables where
  playgrounds : List Playground
  tracker : List (ℕ × Proc)
  haveTaskTracking : Bool

/-- struct anoubisd_msg_listrequest. -/
structure Listrequest where
  token : ℕ
  authUid : ℕ
  listtype : ℕ
  arg : ℕ

/-- The reply to a request that fails. -/
def errorReply (token err : ℕ) : AmsgListContext := { amsgListInit token .notype with fin := true, error := err }

/-- `dispatch_list_request`. -/
def dispatchListRequest (rounds : ℕ) (t : Tables) (req : Listrequest) (q : Queue) : Option Queue :=
  (match req.listtype with
    | 1 => some (pePlaygroundSendPglist t.playgrounds req.token req.arg q)
    | 2 => pePlaygroundSendFilelist rounds t.playgrounds req.token req.arg req.authUid q
    | 3 => some (peProcSendPslist t.tracker t.haveTaskTracking req.token req.arg req.authUid q)
    | _ => some (0, q)).map fun (err, q) => if err = 0 then q else amsgListSend (errorReply req.token err) q

/-! ### What a reply is -/

/-- A message of a list. -/
structure Whole (token : ℕ) (rectype : Rectype) (fin : Bool) (m : AmsgListContext) : Prop where
  token : m.token = token
  rectype : m.rectype = rectype
  fin : m.fin = fin
  error : m.error = 0
  nrec : m.nrec = m.records.length
  curlen : m.curlen = 32 + (m.records.map Prod.fst).sum
  len : m.len + 16 = m.curlen
  limit : m.curlen ≤ 8000

/-- What the records of messages tell. -/
def items (ms : List AmsgListContext) : List Item := ms.flatMap fun m => m.records.map Prod.snd

/-- Messages with START in the first one. -/
def Starts (ms : List AmsgListContext) : Prop := ms.map (·.start) = true :: List.replicate (ms.length - 1) false

/-- Messages of a list behind `q` without the last one. -/
def Sent (token : ℕ) (rectype : Rectype) (q q' : Queue) : Prop :=
  ∃ ms, q' = q ++ ms ∧ ∀ m ∈ ms, Whole token rectype false m

/-- The messages behind `q` tell `is`; the last one is not sent. -/
def Filling (token : ℕ) (rectype : Rectype) (q : Queue) (is : List Item) (s : Out) : Prop :=
  ∃ ms, s.q = q ++ ms ∧ (∀ m ∈ ms, Whole token rectype false m) ∧ Whole token rectype false s.ctx ∧
    Starts (ms ++ [s.ctx]) ∧ items (ms ++ [s.ctx]) = is

/-- A whole list, with END in the last message. -/
def Listed (token : ℕ) (rectype : Rectype) (is : List Item) (ms : List AmsgListContext) : Prop :=
  ∃ pre last, ms = pre ++ [last] ∧ (∀ m ∈ pre, Whole token rectype false m) ∧ Whole token rectype true last ∧
    Starts ms ∧ items ms = is

variable {token : ℕ} {rectype : Rectype} {q : Queue} {is : List Item} {s : Out}

theorem filling_init (token : ℕ) (rectype : Rectype) (q : Queue) :
    Filling token rectype q [] ⟨amsgListInit token rectype, q⟩ :=
  ⟨[], (append_nil q).symm, forall_mem_nil _, ⟨rfl, rfl, rfl, rfl, rfl, rfl, rfl, (by decide : 32 ≤ 8000)⟩, rfl, rfl⟩

theorem sent_nil (token : ℕ) (rectype : Rectype) (q : Queue) : Sent token rectype q q :=
  ⟨[], (append_nil q).symm, forall_mem_nil _⟩

theorem Filling.sent (h : Filling token rectype q is s) : Sent token rectype q s.q := by
  obtain ⟨ms, hq, hms, -⟩ := h
  exact ⟨ms, hq, hms⟩

theorem Filling.renew (h : Filling token rectype q is s) : Filling token rectype q is s.renew := by
  obtain ⟨ms, hq, hms, hctx, hstart, his⟩ := h
  refine ⟨ms ++ [s.ctx], ?_, forall_mem_append.mpr ⟨hms, forall_mem_singleton.mpr hctx⟩,
    ⟨hctx.token, hctx.rectype, rfl, rfl, rfl, rfl, rfl, (by decide : 32 ≤ 8000)⟩, ?_, ?_⟩
  · rw [← append_assoc, ← hq]
    rfl
  · rw [Starts, map_append, hstart]
    simp [Out.renew, ← replicate_succ']
  · rw [← his, items, flatMap_append]
    exact append_nil _

theorem Filling.add (h : Filling token rectype q is s) {r : ℕ × Item} (hr : r.1 ≤ s.ctx.room) :
    Filling token rectype q (is ++ [r.2]) ⟨amsgListAddrecord s.ctx r, s.q⟩ := by
  obtain ⟨ms, hq, hms, hctx, hstart, his⟩ := h
  have hlimit := hctx.limit
  have hlen := hctx.len
  rw [AmsgListContext.room] at hr
  refine ⟨ms, hq, hms, ⟨hctx.token, hctx.rectype, hctx.fin, hctx.error, ?_, ?_, ?_, ?_⟩, ?_, ?_⟩
  · rw [amsgListAddrecord, hctx.nrec, length_append, length_singleton]
  · simp [amsgListAddrecord, hctx.curlen, Nat.add_assoc]
  · dsimp only [amsgListAddrecord]
    omega
  · dsimp only [amsgListAddrecord]
    omega
  · rw [Starts, map_append, length_append] at hstart ⊢
    exact hstart
  · rw [← his, items, items, flatMap_append, flatMap_append]
    simp [amsgListAddrecord]

/-- What filling is to give, and what it gives. -/
inductive Fills (token : ℕ) (rectype : Rectype) (q : Queue) :
    Except Errno (List Item) → Except (Errno × Queue) Out → Prop
  | ok {is : List Item} {s : Out} (h : Filling token rectype q is s) : Fills token rectype q (.ok is) (.ok s)
  | error {e : Errno} {q' : Queue} (h : Sent token rectype q q') : Fills token rectype q (.error e) (.error (e, q'))

/-- What the functions that list return: a whole list, or an error behind some messages. -/
inductive Replies (token : ℕ) (rectype : Rectype) (q : Queue) : Except Errno (List Item) → ℕ × Queue → Prop
  | ok {is : List Item} {ms : List AmsgListContext} (h : Listed token rectype is ms) :
    Replies token rectype q (.ok is) (0, q ++ ms)
  | error {e : Errno} {q' : Queue} (h : Sent token rectype q q') : Replies token rectype q (.error e) (e, q')

theorem Fills.replies {w : Except Errno (List Item)} {r : Except (Errno × Queue) Out}
    (h : Fills token rectype q w r) : Replies token rectype q w (finish r) := by
  cases h with
  | error h => exact .error h
  | ok h =>
    obtain ⟨ms, hq, hms, hctx, hstart, his⟩ := h
    rw [finish, amsgListSend, hq, append_assoc]
    refine .ok ⟨ms, _, rfl, hms, ⟨hctx.token, hctx.rectype, rfl, hctx.error, hctx.nrec, hctx.curlen, hctx.len,
      hctx.limit⟩, ?_, ?_⟩
    · rw [Starts, map_append, length_append] at hstart ⊢
      exact hstart
    · rw [← his, items, items, flatMap_append, flatMap_append]
      rfl

/-- What `sendList` is to list; a message has room for 7968 bytes. -/
def wantedList (rs : List (ℕ × Item)) : Except Errno (List Item) :=
  if ∀ r ∈ rs, r.1 ≤ 7968 then .ok (rs.map Prod.snd) else .error ⟨14, by decide⟩

theorem Filling.room (h : Filling token rectype q is s) : s.ctx.room ≤ 7968 := by
  obtain ⟨ms, -, -, hctx, -⟩ := h
  rw [AmsgListContext.room, hctx.curlen]
  omega

theorem addRecord_fills (h : Filling token rectype q is s) (r : ℕ × Item) :
    Fills token rectype q (if r.1 ≤ 7968 then .ok (is ++ [r.2]) else .error ⟨14, by decide⟩) (addRecord s r) := by
  have hroom := h.room
  rw [addRecord]
  by_cases hs : s.ctx.room < r.1
  · rw [if_pos hs]
    by_cases hr : r.1 ≤ 7968
    · rw [if_pos hr, if_neg (show ¬s.renew.ctx.room < r.1 from Nat.not_lt.mpr hr)]
      exact .ok (h.renew.add hr)
    · rw [if_neg hr, if_pos (show s.renew.ctx.room < r.1 from Nat.not_le.mp hr)]
      exact .error h.renew.sent
  · rw [if_neg hs, if_neg hs, if_pos (by omega)]
    exact .ok (h.add (Nat.le_of_not_lt hs))

theorem foldlM_addRecord (h : Filling token rectype q is s) (rs : List (ℕ × Item)) :
    Fills token rectype q (if ∀ r ∈ rs, r.1 ≤ 7968 then .ok (is ++ rs.map Prod.snd) else .error ⟨14, by decide⟩)
      (rs.foldlM addRecord s) := by
  induction rs generalizing s is with
  | nil =>
    rw [if_pos (forall_mem_nil _), map_nil, append_nil]
    exact .ok h
  | cons r rs ih =>
    have hr := addRecord_fills h r
    rw [foldlM_cons]
    generalize addRecord s r = s' at hr ⊢
    by_cases hlen : r.1 ≤ 7968
    · rw [if_pos hlen] at hr
      cases hr with
      | ok hr =>
        show Fills token rectype q _ (rs.foldlM addRecord _)
        simpa only [forall_mem_cons, hlen, true_and, map_cons, append_assoc, singleton_append] using ih hr
    · rw [if_neg hlen] at hr
      rw [if_neg fun hrs => hlen (hrs r mem_cons_self)]
      cases hr with
      | error hr => exact .error hr

theorem sendList_replies (token : ℕ) (rectype : Rectype) (rs : List (ℕ × Item)) (q : Queue) :
    Replies token rectype q (wantedList rs) (sendList token rectype rs q) :=
  (foldlM_addRecord (filling_init token rectype q) rs).replies

/-! ### Files of a playground -/

/-- The names in a file so far, and the one that has begun. -/
structure Cut where
  names : List (List UInt8)
  path : List UInt8

def Cut.part (c : Cut) (x : List UInt8 × Bool) : Cut :=
  if x.2 then ⟨c.names ++ [c.path ++ x.1], []⟩ else ⟨c.names, c.path ++ x.1⟩

/-- Every NUL ends a name. -/
def Cut.bytes (c : Cut) (bs : List UInt8) : Cut := (bs.map fun b => ([b], decide (b = 0))).foldl Cut.part c

/-- No name is longer than the room in a message behind the header of its record. -/
def Cut.Short (c : Cut) : Prop := ∀ u ∈ c.path :: c.names, u.length ≤ 7936

/-- What `pe_playground_send_onefile` reads, and the error at which it ends. -/
def contents : List Read → List UInt8 × Option Errno
  | [] => ([], none)
  | .error e :: _ => ([], some e)
  | .ok [] :: _ => ([], none)
  | .ok buf :: reads => (buf ++ (contents reads).1, (contents reads).2)

def files (pgid dev ino : ℕ) (c : Cut) : List Item := c.names.map (.pgfile pgid dev ino)

def ends (e : Option Errno) (is : List Item) : Except Errno (List Item) := e.elim (.ok is) .error

/-- What `sendFiles` is to list behind `is`. -/
def wantedFiles (pgid : ℕ) : List Dirent → List Item → Except Errno (List Item)
  | [], is => .ok is
  | ⟨none, _⟩ :: ds, is => wantedFiles pgid ds is
  | ⟨some _, .error e⟩ :: _, _ => .error e
  | ⟨some (dev, ino), .ok reads⟩ :: ds, is =>
    (ends (contents reads).2 (is ++ files pgid dev ino (Cut.bytes ⟨[], []⟩ (contents reads).1))).bind
      (wantedFiles pgid ds)

variable {c : Cut} {x : List UInt8 × Bool} {pgid dev ino n : ℕ} {p : Partial}

theorem foldl_pieces (bs : List UInt8) (c : Cut) : (pieces bs).foldl Cut.part c = c.bytes bs := by
  induction bs generalizing c with
  | nil => rfl
  | cons b bs ih =>
    rw [Cut.bytes, map_cons, foldl_cons, ← Cut.bytes, ← ih, pieces]
    split
    · simp [*]
    · cases pieces bs with
      | nil => simp [*]
      | cons p ps => simp [*, Cut.part]

theorem Cut.short_part : (c.part x).Short ↔ c.Short ∧ c.path.length + x.1.length ≤ 7936 := by
  rw [part, Short, Short]
  split
  · simp only [forall_mem_cons, forall_mem_append, length_append, length_nil]
    grind
  · simp only [forall_mem_cons, length_append]
    grind

theorem Cut.Short.of_foldl {xs : List (List UInt8 × Bool)} (h : (xs.foldl Cut.part c).Short) : c.Short := by
  induction xs generalizing c with
  | nil => exact h
  | cons x xs ih => exact (Cut.short_part.mp (ih h)).1

/-- The state of the loop for a file that is cut so far into `c`. -/
structure Part (token : ℕ) (q : Queue) (is : List Item) (pgid dev ino : ℕ) (c : Cut) (p : Partial) : Prop where
  out : Filling token .pgfilelist q (is ++ files pgid dev ino c) p.out
  path : p.path = c.path
  off : p.recoff + (if p.recoff ≠ 0 then 0 else 32) = 32 + c.path.length

theorem Part.fits (h : Part token q is pgid dev ino c p) (hroom : 32 + c.path.length + x.1.length ≤ p.out.ctx.room) :
    ∃ p', putPiece pgid dev ino x (n + 1) p = some p' ∧ Part token q is pgid dev ino (c.part x) p' := by
  obtain ⟨u, nul⟩ := x
  rw [putPiece]
  dsimp only
  rw [h.off, if_neg (Nat.not_lt.mpr hroom), h.path, Cut.part]
  cases nul with
  | true =>
    refine ⟨_, rfl, ?_, rfl, rfl⟩
    rw [if_pos rfl, files, map_append, ← append_assoc]
    refine h.out.add ?_
    dsimp only
    split
    · assumption
    · exact hroom
  | false =>
    refine ⟨_, rfl, h.out, rfl, ?_⟩
    rw [if_pos (by simp), if_neg Bool.false_ne_true, length_append, ← Nat.add_assoc]
    rfl

/-- There is room for every part in a new message. -/
theorem Part.puts (h : Part token q is pgid dev ino c p) (hshort : (c.part x).Short) :
    ∃ p', putPiece pgid dev ino x (n + 2) p = some p' ∧ Part token q is pgid dev ino (c.part x) p' := by
  by_cases hroom : 32 + c.path.length + x.1.length ≤ p.out.ctx.room
  · exact h.fits hroom
  rw [putPiece]
  dsimp only
  rw [h.off, if_pos (Nat.not_le.mp hroom)]
  refine Part.fits ⟨h.out.renew, h.path, h.off⟩ ?_
  have := (Cut.short_part.mp hshort).2
  show 32 + c.path.length + x.1.length ≤ 8000 - 32
  omega

theorem foldlM_putPiece {xs : List (List UInt8 × Bool)} (h : Part token q is pgid dev ino c p)
    (hshort : (xs.foldl Cut.part c).Short) :
    ∃ p', xs.foldlM (fun p x => putPiece pgid dev ino x (n + 2) p) p = some p' ∧
      Part token q is pgid dev ino (xs.foldl Cut.part c) p' := by
  induction xs generalizing c p with
  | nil => exact ⟨p, rfl, h⟩
  | cons x xs ih =>
    obtain ⟨p', heq, h'⟩ := h.puts (n := n) (Cut.Short.of_foldl hshort)
    rw [foldlM_cons, heq]
    exact ih h' hshort

theorem sendOnefile_fills {reads : List Read} (h : Part token q is pgid dev ino c p)
    (hshort : (c.bytes (contents reads).1).Short) :
    ∃ r, pePlaygroundSendOnefile (n + 2) pgid dev ino reads p = some r ∧
      Fills token .pgfilelist q (ends (contents reads).2 (is ++ files pgid dev ino (c.bytes (contents reads).1))) r := by
  induction reads using contents.induct generalizing c p with
  | case1 => exact ⟨_, rfl, .ok h.out⟩
  | case2 e reads => exact ⟨_, rfl, .error h.out.sent⟩
  | case3 reads => exact ⟨_, rfl, .ok h.out⟩
  | case4 buf reads hbuf ih =>
    rw [contents] at hshort ⊢ <;> [skip; exact hbuf; exact hbuf]
    rw [Cut.bytes, map_append, foldl_append, ← Cut.bytes, ← Cut.bytes, ← foldl_pieces buf] at hshort ⊢
    obtain ⟨p', heq, h'⟩ := foldlM_putPiece (n := n) h hshort.of_foldl
    rw [pePlaygroundSendOnefile, heq] <;> [exact ih h' hshort; exact hbuf]

/-- No name that is read before the first error is too long. -/
def Fit : List Dirent → Prop
  | [] => True
  | ⟨none, _⟩ :: ds => Fit ds
  | ⟨some _, .error _⟩ :: _ => True
  | ⟨some _, .ok reads⟩ :: ds => (Cut.bytes ⟨[], []⟩ (contents reads).1).Short ∧ ((contents reads).2 = none → Fit ds)

theorem part_init (h : Filling token .pgfilelist q is s) (pgid dev ino : ℕ) :
    Part token q is pgid dev ino ⟨[], []⟩ ⟨s, 0, []⟩ := ⟨(append_nil is).symm ▸ h, rfl, rfl⟩

theorem sendFiles_fills {ds : List Dirent} (h : Filling token .pgfilelist q is s) (hfit : Fit ds) :
    ∃ r, sendFiles (n + 2) pgid ds s = some r ∧ Fills token .pgfilelist q (wantedFiles pgid ds is) r := by
  induction ds generalizing is s with
  | nil => exact ⟨_, rfl, .ok h⟩
  | cons d ds ih =>
    match d, hfit with
    | ⟨none, _⟩, hfit => exact ih h hfit
    | ⟨some _, .error e⟩, _ => exact ⟨_, rfl, .error h.sent⟩
    | ⟨some (dev, ino), .ok reads⟩, hfit =>
      obtain ⟨hshort, hrest⟩ := hfit
      obtain ⟨r, heq, hr⟩ := sendOnefile_fills (n := n) (part_init h pgid dev ino) hshort
      rw [sendFiles, heq, wantedFiles]
      generalize (contents reads).2 = stop at hr hrest ⊢
      cases stop with
      | none =>
        cases hr with
        | ok hr => exact ih hr (hrest rfl)
      | some e =>
        cases hr with
        | error hr => exact ⟨_, rfl, .error hr⟩

/-! ### Names that are too long -/

theorem Part.put {p' : Partial} (h : Part token q is pgid dev ino c p) (hput : putPiece pgid dev ino x n p = some p') :
    c.path.length + x.1.length ≤ 7936 ∧ Part token q is pgid dev ino (c.part x) p' := by
  induction n generalizing p with
  | zero => cases hput
  | succ n ih =>
    by_cases hroom : 32 + c.path.length + x.1.length ≤ p.out.ctx.room
    · obtain ⟨p₁, heq, h₁⟩ := h.fits (n := n) hroom
      cases heq.symm.trans hput
      have := h.out.room
      exact ⟨by omega, h₁⟩
    · rw [putPiece] at hput
      dsimp only at hput
      rw [h.off, if_pos (Nat.not_le.mp hroom)] at hput
      exact ih (p := { p with out := p.out.renew }) ⟨h.out.renew, h.path, h.off⟩ hput

theorem foldlM_put {l : List (List UInt8 × Bool)} {p' : Partial} (h : Part token q is pgid dev ino c p)
    (hc : c.Short) (hput : l.foldlM (fun p x => putPiece pgid dev ino x n p) p = some p') :
    (l.foldl Cut.part c).Short ∧ Part token q is pgid dev ino (l.foldl Cut.part c) p' := by
  induction l generalizing c p with
  | nil =>
    cases hput
    exact ⟨hc, h⟩
  | cons x l ih =>
    rw [foldlM_cons] at hput
    obtain ⟨p₁, heq, hput⟩ := Option.bind_eq_some_iff.mp hput
    obtain ⟨hlen, h₁⟩ := h.put heq
    exact ih h₁ (Cut.short_part.mpr ⟨hc, hlen⟩) hput

theorem short_of_onefile {reads : List Read} {r : Except (Errno × Queue) Out} (h : Part token q is pgid dev ino c p)
    (hc : c.Short) (hr : pePlaygroundSendOnefile n pgid dev ino reads p = some r) :
    (c.bytes (contents reads).1).Short := by
  induction reads using contents.induct generalizing c p with
  | case1 => exact hc
  | case2 e reads => exact hc
  | case3 reads => exact hc
  | case4 buf reads hbuf ih =>
    rw [pePlaygroundSendOnefile] at hr <;> [skip; exact hbuf]
    obtain ⟨p', heq, hr⟩ := Option.bind_eq_some_iff.mp hr
    obtain ⟨hc', h'⟩ := foldlM_put h hc heq
    rw [contents] <;> [skip; exact hbuf]
    rw [Cut.bytes, map_append, foldl_append, ← Cut.bytes, ← Cut.bytes, ← foldl_pieces buf]
    exact ih h' hc' hr

theorem fit_of_files {ds : List Dirent} {r : Except (Errno × Queue) Out} (h : Filling token .pgfilelist q is s)
    (hr : sendFiles (n + 2) pgid ds s = some r) : Fit ds := by
  induction ds generalizing is s with
  | nil => trivial
  | cons d ds ih =>
    match d, hr with
    | ⟨none, _⟩, hr => exact ih h hr
    | ⟨some _, .error e⟩, _ => trivial
    | ⟨some (dev, ino), .ok reads⟩, hr =>
      obtain ⟨r₁, heq, hr⟩ := Option.bind_eq_some_iff.mp hr
      have hp := part_init h pgid dev ino
      have hshort := short_of_onefile hp (fun u hu => by cases hu <;> trivial) heq
      refine ⟨hshort, fun hend => ?_⟩
      obtain ⟨r₂, heq₂, hfills⟩ := sendOnefile_fills (n := n) hp hshort
      cases heq.symm.trans heq₂
      rw [hend] at hfills
      cases hfills with
      | ok h₁ => exact ih h₁ hr

/-! ### Replies -/

/-- What a request is to list. -/
def wanted (t : Tables) (req : Listrequest) : Option (Rectype × Except Errno (List Item)) :=
  match req.listtype with
  | 1 => some (.pglist, wantedList (pgRecords t.playgrounds req.arg))
  | 2 => some (.pgfilelist, (playgroundDir t.playgrounds req.arg req.authUid).bind fun ds => wantedFiles req.arg ds [])
  | 3 => some (.proclist, if req.arg ≠ req.authUid ∧ req.authUid ≠ 0 then .error ⟨1, by decide⟩
    else wantedList (procRecords t.tracker t.haveTaskTracking req.arg))
  | _ => none

theorem sendFilelist_replies (token : ℕ) (q : Queue) {pgs : List Playground} {pgid authUid : ℕ}
    (hfit : ∀ ds, playgroundDir pgs pgid authUid = .ok ds → Fit ds) :
    ∃ r, pePlaygroundSendFilelist (n + 2) pgs token pgid authUid q = some r ∧
      Replies token .pgfilelist q ((playgroundDir pgs pgid authUid).bind fun ds => wantedFiles pgid ds []) r := by
  rw [pePlaygroundSendFilelist]
  cases hdir : playgroundDir pgs pgid authUid with
  | error e => exact ⟨_, rfl, .error (sent_nil ..)⟩
  | ok ds =>
    obtain ⟨r, heq, hr⟩ := sendFiles_fills (n := n) (filling_init token .pgfilelist q) (hfit ds hdir)
    dsimp only
    rw [heq]
    exact ⟨_, rfl, hr.replies⟩

/-- A reply behind `q`: a whole list, or an error behind some messages. -/
inductive Reply (token : ℕ) (rectype : Rectype) (q : Queue) : Except Errno (List Item) → Queue → Prop
  | ok {is : List Item} {ms : List AmsgListContext} (h : Listed token rectype is ms) :
    Reply token rectype q (.ok is) (q ++ ms)
  | error {e : Errno} {q' : Queue} (h : Sent token rectype q q') :
    Reply token rectype q (.error e) (amsgListSend (errorReply token e) q')

theorem Replies.reply {w : Except Errno (List Item)} {r : ℕ × Queue} (h : Replies token rectype q w r) :
    Reply token rectype q w (if r.1 = 0 then r.2 else amsgListSend (errorReply token r.1) r.2) := by
  cases h with
  | ok h =>
    rw [if_pos rfl]
    exact .ok h
  | @error e q' h =>
    dsimp only
    rw [if_neg e.2]
    exact .error h

theorem sendPslist_replies (tracker : List (ℕ × Proc)) (haveTaskTracking : Bool) (token uid authUid : ℕ) (q : Queue) :
    Replies token .proclist q (if uid ≠ authUid ∧ authUid ≠ 0 then .error ⟨1, by decide⟩
      else wantedList (procRecords tracker haveTaskTracking uid))
      (peProcSendPslist tracker haveTaskTracking token uid authUid q) := by
  rw [peProcSendPslist]
  split
  · exact .error (sent_nil ..)
  · exact sendList_replies ..

/-- No name that a request makes the daemon read is too long. -/
def Listrequest.Fit (req : Listrequest) (t : Tables) : Prop :=
  req.listtype = 2 → ∀ ds, playgroundDir t.playgrounds req.arg req.authUid = .ok ds → ListReply.Fit ds

/-- A list request of a known type gets all that it asks for in messages of at most 8000 bytes, or the error that
    stopped it; any other gets nothing. With a name that is too long there are messages without end. -/
theorem list_request_reply (n : ℕ) (t : Tables) (req : Listrequest) (q : Queue) :
    (¬req.Fit t ∧ dispatchListRequest (n + 2) t req q = none) ∨
      req.Fit t ∧ ∃ q', dispatchListRequest (n + 2) t req q = some q' ∧
        match wanted t req with
        | none => q' = q
        | some (rectype, w) => Reply req.token rectype q w q' := by
  by_cases hfit : req.Fit t
  · refine .inr ⟨hfit, ?_⟩
    rw [dispatchListRequest, wanted]
    split
    · exact ⟨_, rfl, (sendList_replies ..).reply⟩
    · obtain ⟨r, heq, hr⟩ := sendFilelist_replies (n := n) req.token q (hfit ‹_›)
      rw [heq]
      exact ⟨_, rfl, hr.reply⟩
    · exact ⟨_, rfl, (sendPslist_replies ..).reply⟩
    · exact ⟨_, rfl, rfl⟩
  · refine .inl ⟨hfit, ?_⟩
    simp only [Listrequest.Fit, not_forall] at hfit
    obtain ⟨htype, ds, hdir, hds⟩ := hfit
    have hnone : sendFiles (n + 2) req.arg ds ⟨amsgListInit req.token .pgfilelist, q⟩ = none :=
      Option.eq_none_iff_forall_ne_some.mpr fun r hr => hds (fit_of_files (filling_init ..) hr)
    rw [dispatchListRequest, htype]
    dsimp only
    rw [pePlaygroundSendFilelist, hdir]
    dsimp only
    rw [hnone]
    rfl

end Anoubis.Pe.ListReply

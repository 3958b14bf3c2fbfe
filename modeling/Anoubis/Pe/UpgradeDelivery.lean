import Anoubis.Pe.UpgradeTransfer

/-! The upgrade process sees the whole upgrade tree.

    While the tree waits for the upgrade process no upgrade can start: the counter stays zero, the tree
    as it is and the iterator where it was. So each chunk goes on behind the one before it, and an empty
    chunk means that the iterator is at the end:

        tree     calls so far ++ paths on the way ++ paths behind the iterator                      -/

namespace Anoubis.Pe.Upgrade

open Option

open Anoubis.Apn Anoubis.Lib List

/-! ### Waiting for the upgrade process -/

def Task.marks (p : Task) : Bool × Bool := (p.upgrade, p.upgradeParent)

/-- The upgrade is over, and its files have not been handled yet. -/
structure Waiting (f : FileTree) (st : State) : Prop where
  tree : st.g.upgradeTree = some f
  counter : st.g.upgradeCounter = 0
  unmarked : ∀ p ∈ st.tracker, p.marks = (false, false)

/-- The tree still waits, and `send_upgrade_start` was not called. -/
def Stays (f : FileTree) (st st' : State) : Prop := Waiting f st' ∧ st'.g.started = st.g.started

section Waiting

variable {f : FileTree} {st st₁ st' : State}

theorem Stays.refl (h : Waiting f st) : Stays f st st := ⟨h, rfl⟩

theorem Stays.after (h : Stays f st₁ st') (hs : st₁.g.started = st.g.started) : Stays f st st' :=
  ⟨h.1, h.2.trans hs⟩

section

variable (h : Waiting f st)
include h

theorem Waiting.get {cookie : ℕ} {p : Task} (hp : st.get cookie = some p) :
    p.upgrade = false ∧ p.upgradeParent = false := by
  have hm := h.unmarked p (mem_of_find?_eq_some hp)
  exact ⟨congrArg Prod.fst hm, congrArg Prod.snd hm⟩

theorem Waiting.get_parent (cookie : ℕ) : (st.get cookie).any (·.upgradeParent) = false := by
  cases hp : st.get cookie with
  | none => rfl
  | some p => exact (h.get hp).2

/-- A change of a process that leaves its marks alone. -/
theorem Waiting.modify (cookie : ℕ) (change : Task → Task)
    (hc : ∀ p, (change p).marks = p.marks) : Waiting f (st.modify cookie change) := by
  refine ⟨h.tree, h.counter, fun p hp => ?_⟩
  have hmem : p.marks ∈ (modifyFirst (hasCookie cookie) change st.tracker).map Task.marks :=
    mem_map_of_mem hp
  rw [map_modifyFirst hc] at hmem
  obtain ⟨q, hq, he⟩ := mem_map.mp hmem
  rw [← he]
  exact h.unmarked q hq

/-- A change that takes the marks away. -/
theorem Waiting.clear (cookie : ℕ) : Waiting f (st.modify cookie Task.clrmark) := by
  refine ⟨h.tree, h.counter, fun p hp => ?_⟩
  cases hg : st.tracker.find? (hasCookie cookie) with
  | none =>
    rw [State.modify, modifyFirst_eq_self hg] at hp
    exact h.unmarked p hp
  | some q =>
    obtain ⟨rest, hl, hm⟩ := exists_modifyFirst hg Task.clrmark
    rcases mem_cons.mp (hm.mem_iff.mp hp) with rfl | hp
    · rfl
    · exact h.unmarked p (hl.mem_iff.mpr (mem_cons_of_mem q hp))

theorem Waiting.track {p : Task} (hp : p.marks = (false, false)) :
    Waiting f { st with tracker := st.tracker ++ [p] } := by
  refine ⟨h.tree, h.counter, fun q hq => ?_⟩
  rcases mem_append.mp hq with hq | hq
  · exact h.unmarked q hq
  · rwa [mem_singleton.mp hq]

/-- A new parent is put on hold. -/
theorem stays_start (cookie : ℕ) : Stays f st (st.start cookie) := by
  rw [State.start]
  rcases peUpgradeStart_cases st.g (st.get cookie) with ⟨-, he⟩ | ⟨-, -, -, he⟩ | ⟨-, hopen, -⟩
  · rw [he]
    exact ⟨h.modify cookie _ fun _ => rfl, rfl⟩
  · rw [he]
    exact ⟨h.modify cookie _ fun _ => rfl, rfl⟩
  · rcases hopen with hn | hn
    · cases h.tree.symm.trans hn
    · exact absurd h.counter hn

theorem stays_end (cookie : ℕ) : Stays f st (st.end cookie) := by
  rw [State.end, h.get_parent cookie]
  exact ⟨h.clear cookie, rfl⟩

theorem stays_exit (cookie : ℕ) : Stays f st (peProcExit st cookie) := by
  rw [peProcExit]
  cases hp : st.get cookie with
  | none => exact .refl h
  | some p =>
    simp only
    split
    · exact ⟨h.modify cookie _ fun _ => rfl, rfl⟩
    · rw [(h.get hp).2]
      exact ⟨⟨h.tree, h.counter, fun q hq => h.unmarked q (mem_of_mem_eraseP hq)⟩, rfl⟩

theorem Waiting.tracking : Waiting f st.tracking := ⟨h.tree, h.counter, h.unmarked⟩

theorem stays_removeThread (cookie : ℕ) : Stays f st (peProcRemoveThread st cookie) := by
  rw [peProcRemoveThread]
  cases st.get cookie with
  | none => exact ⟨h.tracking, rfl⟩
  | some p =>
    simp only
    split
    · exact ⟨h.tracking, rfl⟩
    · have hm := h.tracking.modify cookie (fun p => { p with threads := p.threads - 1 }) fun _ => rfl
      split
      · exact (stays_end hm cookie).after rfl
      · exact ⟨hm, rfl⟩

/-- Nothing but the end of the checksum update moves the tree. -/
theorem stays_step (e : Config × Event) (hf : e.2 ≠ .finish) : Stays f st (step st e) := by
  obtain ⟨conf, e⟩ := e
  cases e with
  | lock cookie msgUid =>
    rcases lock_cases conf st cookie msgUid with he | ⟨he, -⟩
    · rw [step, he]
      exact .refl h
    · rw [step, he]
      exact stays_start h cookie
  | unlock cookie msgUid =>
    rw [step, unlock]
    simp only
    split
    · exact stays_end h cookie
    · exact .refl h
  | fork child parent =>
    have hu : (st.get parent).any (·.upgrade) = false := by
      cases hp : st.get parent with
      | none => rfl
      | some p => exact (h.get hp).1
    refine ⟨h.track ?_, rfl⟩
    rw [hu]
    rfl
  | exec cookie uid pathhint =>
    have ht : Stays f st
        (if (st.get cookie).isSome then st else { st with tracker := st.tracker ++ [newTask cookie] }) := by
      split
      · exact .refl h
      · exact ⟨h.track rfl, rfl⟩
    rw [step, peProcExec]
    split
    · exact (stays_start ht.1 cookie).after ht.2
    · exact ht
  | exit cookie => exact stays_exit h cookie
  | replace keep gone =>
    have hadd : Waiting f (peProcAddinstance st keep) := h.modify keep _ fun _ => rfl
    exact (stays_exit hadd gone).after rfl
  | create cookie => exact ⟨h.tracking.modify cookie _ fun _ => rfl, rfl⟩
  | destroy cookie => exact stays_removeThread h cookie
  | openFile cookie path amask haschecksum =>
    have hw : writes st cookie path amask haschecksum = none := by
      cases hp : st.get cookie with
      | none => simp [writes, hp]
      | some p => cases path <;> simp [writes, hp, (h.get hp).1]
    rw [step, peHandleSfs, hw]
    exact .refl h
  | finish => exact absurd rfl hf
  | setUpgradeOk value => exact ⟨⟨h.tree, h.counter, h.unmarked⟩, rfl⟩

end

end Waiting

/-! ### Chunks -/

/-- The paths of a chunk with their NULs. -/
def encode (paths : List Text) : Text := paths.flatMap (fun path => path ++ [nul])

theorem chunkPaths_cons {path : Text} (h : nul ∉ path) (rest : Text) :
    chunkPaths (path ++ nul :: rest) = path :: chunkPaths rest := by
  have htake : (path ++ nul :: rest).takeWhile (· ≠ nul) = path := by
    rw [takeWhile_append_of_pos, takeWhile_cons_of_neg, append_nil]
    · simp
    · intro c hc
      simpa using fun he : c = nul => h (he ▸ hc)
  have hdrop : (path ++ nul :: rest).drop (path.length + 1) = rest := by
    rw [← drop_drop, drop_left, drop_one, tail_cons]
  obtain ⟨c, cs, hc⟩ : ∃ c cs, path ++ nul :: rest = c :: cs :=
    exists_cons_of_ne_nil (append_ne_nil_of_right_ne_nil _ (cons_ne_nil _ _))
  rw [hc, chunkPaths, ← hc, htake, hdrop]

variable {paths : List Text}

theorem chunkPaths_encode (h : ∀ path ∈ paths, nul ∉ path) : chunkPaths (encode paths) = paths := by
  induction paths with
  | nil => rw [encode, flatMap_nil, chunkPaths]
  | cons path paths ih =>
    have htail : chunkPaths (encode paths) = paths := ih fun p hp => h p (mem_cons_of_mem path hp)
    rw [encode, flatMap_cons, append_assoc, singleton_append, chunkPaths_cons (h path mem_cons_self)]
    rw [encode] at htail
    rw [htail]

/-- The last byte of a chunk is a NUL already. -/
theorem terminated_encode (h : paths ≠ []) : terminated (encode paths) = encode paths := by
  obtain ⟨init, path, rfl⟩ : ∃ init path, paths = init ++ [path] :=
    ⟨paths.dropLast, paths.getLast h, (dropLast_append_getLast h).symm⟩
  rw [terminated, encode, flatMap_append, flatMap_singleton, ← append_assoc, dropLast_concat]

theorem length_encode_eq_zero : (encode paths).length = 0 ↔ paths = [] := by
  cases paths with
  | nil => simp [encode]
  | cons path paths => simp [encode]

section Iterator

variable {f pre rest : FileTree} {p : Policy}

theorem idleTree_of_waiting (h : Waiting f p.pe) : p.idleTree = some f := by
  rw [Policy.idleTree, if_neg (not_not.mpr h.counter), h.tree]

theorem filelistGet_of_waiting (h : Waiting f p.pe) : p.filelistGet = p := by
  rw [Policy.filelistGet, idleTree_of_waiting h, bind_some]

/-- The node behind one in the middle of the tree. -/
theorem peFiletreeNext_append {n : Node} (hnd : ((pre ++ n :: rest).map Node.path).Nodup) :
    peFiletreeNext (pre ++ n :: rest) n.path = rest.head? := by
  have hpre : ∀ m ∈ pre, decide (m.path ≠ n.path) = true := by
    intro m hm
    rw [map_append, map_cons] at hnd
    have hdis := (nodup_append.mp hnd).2.2
    simpa using hdis m.path (mem_map_of_mem hm) n.path mem_cons_self
  rw [peFiletreeNext, dropWhile_append_of_pos hpre, dropWhile_cons_of_neg (by simp), tail_cons]

/-- What `fillChunk` copies: the paths of some nodes behind the iterator, none only if the first one is
    too long or there is none. -/
theorem fillChunk_spec (hw : Waiting f p.pe) (hf : f = pre ++ rest) (hnd : (f.map Node.path).Nodup)
    (hi : p.iterator = rest.head?.map Node.path) (maxlen reallen : ℕ) :
    ∃ mid rest', rest = mid ++ rest' ∧
      fillChunk maxlen reallen p = (encode (mid.map Node.path), ⟨p.pe, rest'.head?.map Node.path⟩) ∧
      (mid = [] → ∀ n ∈ rest'.head?, maxlen < reallen + (n.path.length + 1)) := by
  induction rest generalizing pre p reallen with
  | nil =>
    refine ⟨[], [], rfl, ?_, fun _ n hn => by cases hn⟩
    rw [fillChunk, filelistGet_of_waiting hw, hi]
    exact Prod.ext rfl (congrArg (Policy.mk p.pe) hi)
  | cons n rest ih =>
    have hget : p.filelistGet = p := filelistGet_of_waiting hw
    have hit : p.iterator = some n.path := hi
    rw [fillChunk, hget, hit]
    simp only
    by_cases hlen : maxlen < reallen + (n.path.length + 1)
    · rw [if_pos hlen]
      refine ⟨[], n :: rest, rfl, Prod.ext rfl (congrArg (Policy.mk p.pe) hi), fun _ m hm => ?_⟩
      rw [← mem_some_iff.mp hm]
      exact hlen
    · rw [if_neg hlen]
      -- the iterator moves on to the next node
      have hnext : p.filelistNext.iterator = rest.head?.map Node.path := by
        rw [Policy.filelistNext, idleTree_of_waiting hw, hit, bind_some, bind_some, hf,
          peFiletreeNext_append (hf ▸ hnd)]
      obtain ⟨mid, rest', hrest, hfill, -⟩ :=
        @ih (pre ++ [n]) p.filelistNext hw (by rw [hf, append_assoc]; rfl) hnext
          (reallen + (n.path.length + 1))
      refine ⟨n :: mid, rest', by rw [hrest]; rfl, ?_, fun h => by cases h⟩
      rw [hfill, encode, encode, map_cons, flatMap_cons, append_assoc]
      rfl

/-- The next chunk; it is empty only at the end. -/
theorem sendUpgradeChunk_spec (hw : Waiting f p.pe) (hf : f = pre ++ rest) (hnd : (f.map Node.path).Nodup)
    (hi : p.iterator = rest.head?.map Node.path) (hlen : ∀ n ∈ f, n.path.length < pathMax) :
    ∃ mid rest', rest = mid ++ rest' ∧
      p.sendUpgradeChunk = (.chunk (encode (mid.map Node.path)), ⟨p.pe, rest'.head?.map Node.path⟩) ∧
      (mid = [] → rest' = []) := by
  obtain ⟨mid, rest', hrest, hfill, hend⟩ := fillChunk_spec hw hf hnd hi pathMax 0
  refine ⟨mid, rest', hrest, by rw [Policy.sendUpgradeChunk, hfill], fun hmid => ?_⟩
  cases rest' with
  | nil => rfl
  | cons n rest' =>
    have hlong : pathMax < 0 + (n.path.length + 1) := hend hmid n rfl
    have hn : n.path.length < pathMax := hlen n (by simp [hf, hrest])
    omega

end Iterator

/-! ### The calls of send_checksum -/

def Act.path : Act → Option Text
  | .call path _ => some path
  | .send _ => none

/-- The paths that `send_checksum` was called with. -/
def called (trace : List Act) : List Text := trace.filterMap Act.path

/-- The messages sent. -/
def sentBy (trace : List Act) : List Msg := trace.filterMap Act.sent

def Msg.isUpdate : Msg → Bool
  | .updateAll .. => true
  | .start | .chunkReq | .chunk _ | .fin => false

/-- A call goes on in tree order, and the end comes behind all of them. -/
def Ordered (f : FileTree) (before : List Act) : Act → Prop
  | .call path _ => called before ++ [path] <+: f.map Node.path
  | .send .fin => called before = f.map Node.path
  | .send .start | .send .chunkReq | .send (.chunk _) | .send (.updateAll ..) => True

/-- The checksum comes from the link or from the kernel. -/
def Answers.Computed (sha : Text → Csum) (a : Answers) (csum : Csum) : Prop :=
  (a.lstat = some .link ∧ ∃ buf, a.readlink = some buf ∧ csum = sha buf) ∨
    (a.lstat = some .regular ∧ a.openFile = true ∧ a.getcsum = some csum)

/-- A checksum is sent by the call for its path, which calculated it. -/
def Sound (sha : Text → Csum) (before : List Act) : Act → Prop
  | .send (.updateAll path csum) => ∃ a, before.getLast? = some (.call path a) ∧ a.Computed sha csum
  | .send .start | .send .chunkReq | .send (.chunk _) | .send .fin | .call .. => True

/-- The kernel does not refuse the checksum of a regular file that is open. -/
def Answers.Supplied (a : Answers) : Prop :=
  a.lstat = some .regular → a.openFile = true → a.getcsum ≠ none

section Calls

variable {sha : Text → Csum} {f : FileTree}

/-- What a call of `send_checksum` adds to the trace. -/
def callActs (sha : Text → Csum) (dev : Bool) (a : Answers) (path : Text) : List Act :=
  match if dev then a.csum sha else none with
  | some csum => [.call path a, .send (.updateAll path csum)]
  | none => [.call path a]

theorem sendChecksum_eq (u : Upgrader) (a : Answers) (path : Text) : u.sendChecksum sha a path =
      ⟨some (u.devanoubis.getD a.openDevice), u.trace ++ callActs sha (u.devanoubis.getD a.openDevice) a path⟩ := by
  rw [Upgrader.sendChecksum, callActs]
  cases if u.devanoubis.getD a.openDevice then a.csum sha else none with
  | none => rfl
  | some csum => exact congrArg _ (append_assoc _ _ _)

theorem called_callActs (dev : Bool) (a : Answers) (path : Text) : called (callActs sha dev a path) = [path] := by
  rw [callActs]
  cases if dev then a.csum sha else none <;> rfl

theorem sentBy_callActs (dev : Bool) (a : Answers) (path : Text) :
    ∀ m ∈ sentBy (callActs sha dev a path), m.isUpdate = true := by
  rw [callActs]
  cases if dev then a.csum sha else none with
  | none => exact fun m hm => by cases hm
  | some csum =>
    intro m hm
    rw [mem_singleton.mp hm]
    rfl

theorem called_append (l l' : List Act) : called (l ++ l') = called l ++ called l' := filterMap_append

theorem sentBy_append (l l' : List Act) : sentBy (l ++ l') = sentBy l ++ sentBy l' := filterMap_append

/-- One call, for a path that is next in the tree. -/
theorem ordered_callActs {l : List Act} (h : AtEach (Ordered f) l) (dev : Bool) (a : Answers) {path : Text}
    (hp : called l ++ [path] <+: f.map Node.path) : AtEach (Ordered f) (l ++ callActs sha dev a path) := by
  have hcall : AtEach (Ordered f) (l ++ [.call path a]) := atEach_concat h hp
  rw [callActs]
  cases if dev then a.csum sha else none with
  | none => exact hcall
  | some csum =>
    have hsend : AtEach (Ordered f) ((l ++ [.call path a]) ++ [.send (.updateAll path csum)]) :=
      atEach_concat hcall trivial
    rwa [append_assoc] at hsend

variable (sha) in
/-- What `send_checksum` sends is a checksum unless the kernel refuses it. -/
theorem computed_csum_iff (a : Answers) : (∀ csum, a.csum sha = some csum → a.Computed sha csum) ↔ a.Supplied := by
  rw [Answers.csum, Answers.Supplied]
  cases hk : a.lstat with
  | none => simp
  | some kind =>
    cases kind with
    | other => simp
    | link =>
      simp only [reduceCtorEq, false_implies, iff_true, Option.some.injEq]
      intro csum hc
      obtain ⟨buf, hb, he⟩ := map_eq_some_iff.mp hc
      exact .inl ⟨hk, buf, hb, he.symm⟩
    | regular =>
      simp only [true_implies]
      cases ho : a.openFile with
      | false => simp
      | true =>
        simp only [if_true, true_implies]
        cases hg : a.getcsum with
        | none =>
          refine iff_of_false (fun h => ?_) (fun h => h rfl)
          rcases h a.stack rfl with ⟨hl, -⟩ | ⟨-, -, hs⟩
          · cases hk.symm.trans hl
          · cases hg.symm.trans hs
        | some csum =>
          refine iff_of_true (fun c hc => ?_) (fun h => by cases h)
          exact .inr ⟨hk, ho, hg.trans hc⟩

theorem sound_callActs {l : List Act} (h : AtEach (Sound sha) l) (dev : Bool) (a : Answers) (path : Text) :
    AtEach (Sound sha) (l ++ callActs sha dev a path) ↔ (dev = true → a.Supplied) := by
  have hcall : AtEach (Sound sha) (l ++ [.call path a]) := atEach_concat h trivial
  rw [callActs]
  cases dev with
  | false => exact iff_of_true hcall (fun h => by cases h)
  | true =>
    rw [if_pos rfl, ← computed_csum_iff sha]
    simp only [true_implies]
    cases hc : a.csum sha with
    | none => exact iff_of_true hcall (fun c h => by cases h)
    | some csum =>
      simp only
      constructor
      · intro hs c hcs
        cases hcs
        obtain ⟨b, hb, hcomp⟩ := hs (l ++ [.call path a]) (.send (.updateAll path csum)) []
          (by rw [append_assoc]; rfl)
        rw [getLast?_concat] at hb
        obtain ⟨-, rfl⟩ := Act.call.inj (some.inj hb)
        exact hcomp
      · intro hcomp
        have hsend : AtEach (Sound sha) ((l ++ [.call path a]) ++ [.send (.updateAll path csum)]) :=
          atEach_concat hcall ⟨a, getLast?_concat, hcomp csum rfl⟩
        rwa [append_assoc] at hsend

variable (sha) in
/-- All calls for a chunk. -/
theorem sendChecksums_spec (answers : ℕ → Answers) (paths : List Text) (k : ℕ) (u : Upgrader) :
    ∃ acts, (u.sendChecksums sha answers k paths).trace = u.trace ++ acts ∧ called acts = paths ∧
      (∀ m ∈ sentBy acts, m.isUpdate = true) := by
  induction paths generalizing k u with
  | nil => exact ⟨[], (append_nil _).symm, rfl, fun m hm => by cases hm⟩
  | cons path paths ih =>
    obtain ⟨acts, htrace, hcalled, hsent⟩ := ih (k + 1) (u.sendChecksum sha (answers k) path)
    rw [sendChecksum_eq] at htrace
    refine ⟨callActs sha (u.devanoubis.getD (answers k).openDevice) (answers k) path ++ acts, ?_, ?_, ?_⟩
    · rw [Upgrader.sendChecksums, sendChecksum_eq, htrace, append_assoc]
    · rw [called_append, called_callActs, hcalled, singleton_append]
    · intro m hm
      rw [sentBy_append] at hm
      rcases mem_append.mp hm with hm | hm
      · exact sentBy_callActs _ _ _ m hm
      · exact hsent m hm

theorem ordered_sendChecksums (answers : ℕ → Answers) (paths : List Text) (k : ℕ) (u : Upgrader)
    (h : AtEach (Ordered f) u.trace) (hp : called u.trace ++ paths <+: f.map Node.path) :
    AtEach (Ordered f) (u.sendChecksums sha answers k paths).trace := by
  induction paths generalizing k u with
  | nil => exact h
  | cons path paths ih =>
    rw [append_cons] at hp
    rw [Upgrader.sendChecksums, sendChecksum_eq]
    refine ih (k + 1) _ (ordered_callActs h _ _ ((prefix_append _ _).trans hp)) ?_
    rwa [called_append, called_callActs]

/-- The device is open during the calls for a chunk. -/
def Upgrader.opens (u : Upgrader) (answers : ℕ → Answers) : Bool := u.devanoubis.getD (answers 0).openDevice

theorem sound_sendChecksums (answers : ℕ → Answers) (paths : List Text) (k : ℕ) (u : Upgrader)
    (h : AtEach (Sound sha) u.trace) : AtEach (Sound sha) (u.sendChecksums sha answers k paths).trace ↔
      (u.devanoubis.getD (answers k).openDevice = true →
        ∀ i < paths.length, (answers (k + i)).Supplied) := by
  induction paths generalizing k u with
  | nil => exact iff_of_true h fun _ i hi => absurd hi (Nat.not_lt_zero i)
  | cons path paths ih =>
    have hfirst := sound_callActs h (u.devanoubis.getD (answers k).openDevice) (answers k) path
    rw [Upgrader.sendChecksums, sendChecksum_eq]
    constructor
    · intro hs hdev i hi
      obtain ⟨acts, htrace, -⟩ := sendChecksums_spec sha answers paths (k + 1)
        ⟨some (u.devanoubis.getD (answers k).openDevice),
          u.trace ++ callActs sha (u.devanoubis.getD (answers k).openDevice) (answers k) path⟩
      have hone := (htrace ▸ hs).left
      have hrest := (ih (k + 1) _ hone).mp hs hdev
      cases i with
      | zero => exact hfirst.mp hone hdev
      | succ i =>
        have hi' := hrest i (by simpa using hi)
        rwa [Nat.add_right_comm] at hi'
    · intro hall
      have hone := hfirst.mpr fun hdev => hall hdev 0 (Nat.succ_pos _)
      refine (ih (k + 1) _ hone).mpr fun hdev i hi => ?_
      have hi' := hall hdev (i + 1) (Nat.succ_lt_succ hi)
      rwa [← add_assoc, Nat.add_right_comm] at hi'

end Calls

/-! ### The invariant -/

/-- The messages on the way; `mid` are the files of a chunk that is on the way, and `rest` those behind
    the iterator. -/
inductive Stage (t : Transfer) (mid rest : FileTree) : Prop
  | starting (down : t.down = [.start]) (up : t.up = []) (empty : mid = [])
  | asking (down : t.down = []) (us : List Msg) (up : t.up = us ++ [.chunkReq])
      (updates : ∀ m ∈ us, m.isUpdate = true) (empty : mid = [])
  | answered (down : t.down = [.chunk (encode (mid.map Node.path))]) (up : t.up = [])
      (last : mid = [] → rest = [])
  | ending (down : t.down = []) (us : List Msg) (up : t.up = us ++ [.fin])
      (updates : ∀ m ∈ us, m.isUpdate = true) (empty : mid = []) (last : rest = [])

/-- The calls so far, the paths on the way and those behind the iterator are the tree. -/
structure Delivers (f : FileTree) (t : Transfer) : Prop where
  waiting : Waiting f t.policy.pe
  taken : t.taken ≤ (sentBy t.upgrader.trace).length
  place : ∃ pre mid rest, f = pre ++ (mid ++ rest) ∧ called t.upgrader.trace = pre.map Node.path ∧
    t.policy.iterator = rest.head?.map Node.path ∧ Stage t mid rest

/-- The invariant of a transfer. -/
structure Inv (f : FileTree) (t : Transfer) : Prop where
  ordered : AtEach (Ordered f) t.upgrader.trace
  running : t.done = false → Delivers f t
  ended : t.done = true → called t.upgrader.trace = f.map Node.path ∧ t.down = []

section Invariant

variable {sha : Text → Csum} {f : FileTree} {t t' : Transfer}

/-- New messages of the upgrade process are at the end of the queue. -/
theorem up_append (h : t.taken ≤ (sentBy t.upgrader.trace).length) (acts : List Act) (dev : Option Bool)
    (policy : Policy) (down : List Msg) (done : Bool) :
    Transfer.up ⟨policy, down, ⟨dev, t.upgrader.trace ++ acts⟩, t.taken, done⟩ = t.up ++ sentBy acts := by
  have hcat : (t.upgrader.trace ++ acts).filterMap Act.sent = sentBy t.upgrader.trace ++ sentBy acts :=
    filterMap_append
  rw [Transfer.up, hcat, drop_append_of_le_length h]
  rfl

/-- The master takes the first message. -/
theorem up_take {m : Msg} {us : List Msg} (h : t.up = m :: us) (policy : Policy) (down : List Msg) (done : Bool) :
    Transfer.up ⟨policy, down, t.upgrader, t.taken + 1, done⟩ = us ∧
      t.taken + 1 ≤ (sentBy t.upgrader.trace).length := by
  rw [Transfer.up] at h ⊢
  constructor
  · rw [← tail_drop, h, tail_cons]
  · have hlen := congrArg List.length h
    rw [length_drop, length_cons] at hlen
    rw [sentBy]
    omega

theorem inv_policy {e : Config × Event} (h : Inv f t) (hs : t.step sha (.policy e) = some t') : Inv f t' := by
  rw [Transfer.step] at hs
  cases hd : t.done with
  | true => simp [hd] at hs
  | false =>
    obtain ⟨hw, htaken, hplace⟩ := h.running hd
    by_cases hfin : e.2 = .finish
    · simp [hd, hfin] at hs
    · obtain ⟨hstay, hstart⟩ := stays_step hw e hfin
      have hev : t.policy.event e = ([], { t.policy with pe := step t.policy.pe e }) := by
        rw [Policy.event]
        exact if_pos hstart
      rw [hd, hev] at hs
      simp only [Bool.false_eq_true, if_false, hfin, append_nil, Option.some.injEq] at hs
      subst hs
      refine ⟨h.ordered, fun _ => ⟨hstay, htaken, ?_⟩, fun hdone => by cases hdone⟩
      obtain ⟨pre, mid, rest, hf, hc, hi, hstage⟩ := hplace
      refine ⟨pre, mid, rest, hf, hc, hi, ?_⟩
      cases hstage with
      | starting down up empty => exact .starting down up empty
      | asking down us up updates empty => exact .asking down us up updates empty
      | answered down up last => exact .answered down up last
      | ending down us up updates empty last => exact .ending down us up updates empty last

end Invariant

section Messages

variable {sha : Text → Csum} {f : FileTree} {t t' : Transfer}

variable {m : Msg} {us : List Msg} {answers : ℕ → Answers}
theorem update_of_isUpdate (h : m.isUpdate = true) : ∃ path csum, m = .updateAll path csum := by
  cases m with
  | updateAll path csum => exact ⟨path, csum, rfl⟩
  | start | chunkReq | chunk | fin => cases h

/-- The master takes a checksum. -/
theorem step_relay_update {path : Text} {csum : Csum} (hd : t.done = false)
    (h : t.up = .updateAll path csum :: us) : t.step sha .relay = some { t with taken := t.taken + 1 } := by
  simp [Transfer.step, hd, h]

theorem step_relay_chunkReq (hd : t.done = false) (h : t.up = .chunkReq :: us) :
    t.step sha .relay = some { t with
      policy := t.policy.sendUpgradeChunk.2, down := t.down ++ [t.policy.sendUpgradeChunk.1]
      taken := t.taken + 1, done := false } := by
  simp [Transfer.step, hd, h, Policy.dispatchUpgrade]

theorem step_relay_fin (hd : t.done = false) (h : t.up = .fin :: us) :
    t.step sha .relay = some { t with
      policy := ⟨t.policy.pe.finish, none⟩, down := t.down ++ [], taken := t.taken + 1, done := true } := by
  simp [Transfer.step, hd, h, Policy.dispatchUpgrade]

theorem inv_relay (hnd : (f.map Node.path).Nodup) (hlen : ∀ n ∈ f, n.path.length < pathMax)
    (h : Inv f t) (hs : t.step sha .relay = some t') : Inv f t' := by
  cases hd : t.done with
  | true => simp [Transfer.step, hd] at hs
  | false =>
    obtain ⟨hw, htaken, pre, mid, rest, hf, hc, hi, hstage⟩ := h.running hd
    -- a checksum leaves the queue, the rest stays
    have hupdate : ∀ {path csum us}, t.up = .updateAll path csum :: us →
        (∀ taken, Transfer.up { t with taken := taken } = us → Stage { t with taken := taken } mid rest) →
        Inv f t' := by
      intro path csum us hup hst
      rw [step_relay_update hd hup] at hs
      cases hs
      obtain ⟨hup', htaken'⟩ := up_take hup t.policy t.down t.done
      exact ⟨h.ordered, fun _ => ⟨hw, htaken', pre, mid, rest, hf, hc, hi, hst _ hup'⟩, h.ended⟩
    cases hstage with
    | starting _ up _ => simp [Transfer.step, hd, up] at hs
    | answered _ up _ => simp [Transfer.step, hd, up] at hs
    | asking down us up updates empty =>
      cases us with
      | cons m us =>
        obtain ⟨path, csum, rfl⟩ := update_of_isUpdate (updates m mem_cons_self)
        exact hupdate up fun taken hup' =>
          .asking down us hup' (fun m hm => updates m (mem_cons_of_mem _ hm)) empty
      | nil =>
        subst empty
        rw [step_relay_chunkReq hd up] at hs
        cases hs
        obtain ⟨mid', rest', hrest, hchunk, hlast⟩ :=
          sendUpgradeChunk_spec hw hf hnd hi hlen
        obtain ⟨hup', htaken'⟩ := up_take up t.policy.sendUpgradeChunk.2
          (t.down ++ [t.policy.sendUpgradeChunk.1]) false
        refine ⟨h.ordered, fun _ => ⟨?_, htaken', pre, mid', rest', ?_, hc, ?_, .answered ?_ hup' hlast⟩,
          fun hdone => by cases hdone⟩
        · rwa [hchunk]
        · rw [← hrest]
          exact hf
        · rw [hchunk]
        · rw [hchunk, down, nil_append]
    | ending down us up updates empty last =>
      cases us with
      | cons m us =>
        obtain ⟨path, csum, rfl⟩ := update_of_isUpdate (updates m mem_cons_self)
        exact hupdate up fun taken hup' =>
          .ending down us hup' (fun m hm => updates m (mem_cons_of_mem _ hm)) empty last
      | nil =>
        subst empty last
        rw [step_relay_fin hd up] at hs
        cases hs
        refine ⟨h.ordered, fun hdone => (by cases hdone), fun _ => ⟨?_, by rw [down, nil_append]⟩⟩
        rw [hc, hf, nil_append, append_nil]

theorem step_upgrade {down : List Msg} (hd : t.done = false) (h : t.down = m :: down) :
    t.step sha (.upgrade answers) =
      some { t with down := down, upgrader := t.upgrader.dispatchUpgrade sha answers m } := by
  simp [Transfer.step, hd, h]

theorem inv_upgrade (hnul : ∀ n ∈ f, nul ∉ n.path) (h : Inv f t) (hs : t.step sha (.upgrade answers) = some t') :
    Inv f t' := by
  cases hd : t.done with
  | true => simp [Transfer.step, hd] at hs
  | false =>
    obtain ⟨hw, htaken, pre, mid, rest, hf, hc, hi, hstage⟩ := h.running hd
    have hgrows : ∀ acts, t.taken ≤ (sentBy (t.upgrader.trace ++ acts)).length := by
      intro acts
      rw [sentBy_append, length_append]
      omega
    cases hstage with
    | asking down us _ _ _ => simp [Transfer.step, hd, down] at hs
    | ending down us _ _ _ _ => simp [Transfer.step, hd, down] at hs
    | starting down up empty =>
      rw [step_upgrade hd down] at hs
      cases hs
      refine ⟨atEach_concat h.ordered trivial, fun _ => ⟨hw, hgrows _, pre, mid, rest, hf, ?_, hi, ?_⟩,
        fun hdone => by cases hd.symm.trans hdone⟩
      · rw [Upgrader.dispatchUpgrade, Upgrader.send, called_append, hc]
        exact append_nil _
      · refine .asking rfl [] ?_ (fun m hm => by cases hm) empty
        exact (up_append htaken _ _ _ _ _).trans (congrArg (· ++ _) up)
    | answered down up last =>
      rw [step_upgrade hd down] at hs
      cases hs
      by_cases hmid : mid = []
      · -- the empty chunk
        obtain rfl := last hmid
        subst hmid
        have hall : called t.upgrader.trace = f.map Node.path := by
          rw [hc, hf, nil_append, append_nil]
        refine ⟨atEach_concat h.ordered hall, fun _ => ⟨hw, hgrows _, pre, [], [], hf, ?_, hi, ?_⟩,
          fun hdone => by cases hd.symm.trans hdone⟩
        · change called (t.upgrader.trace ++ [.send .fin]) = _
          rw [called_append, hc]
          exact append_nil _
        · refine .ending rfl [] ?_ (fun m hm => by cases hm) rfl rfl
          exact (up_append htaken _ _ _ _ _).trans (congrArg (· ++ _) up)
      · -- a call for every string of the chunk
        have hne : mid.map Node.path ≠ [] := by simpa using hmid
        have hpaths : chunkPaths (terminated (encode (mid.map Node.path))) = mid.map Node.path := by
          rw [terminated_encode hne]
          refine chunkPaths_encode fun path hp => ?_
          obtain ⟨n, hn, rfl⟩ := mem_map.mp hp
          exact hnul n (by simp [hf, hn])
        have hdisp : t.upgrader.dispatchUpgrade sha answers (.chunk (encode (mid.map Node.path))) =
            (t.upgrader.sendChecksums sha answers 0 (mid.map Node.path)).send .chunkReq := by
          rw [Upgrader.dispatchUpgrade, if_neg (mt length_encode_eq_zero.mp hne), hpaths]
        obtain ⟨acts, htrace, hcalled, hsent⟩ :=
          sendChecksums_spec sha answers (mid.map Node.path) 0 t.upgrader
        have hpre : called t.upgrader.trace ++ mid.map Node.path <+: f.map Node.path := by
          refine ⟨rest.map Node.path, ?_⟩
          rw [hc, hf, map_append, map_append, append_assoc]
        rw [hdisp]
        have hall : (t.upgrader.sendChecksums sha answers 0 (mid.map Node.path)).send .chunkReq =
            ⟨(t.upgrader.sendChecksums sha answers 0 (mid.map Node.path)).devanoubis,
              t.upgrader.trace ++ (acts ++ [.send .chunkReq])⟩ := by
          rw [Upgrader.send, htrace, append_assoc]
        refine ⟨atEach_concat (ordered_sendChecksums answers _ 0 _ h.ordered hpre) trivial, fun _ => ?_,
          fun hdone => by cases hd.symm.trans hdone⟩
        rw [hall]
        refine ⟨hw, hgrows _, pre ++ mid, [], rest, ?_, ?_, hi, ?_⟩
        · rw [hf, nil_append, append_assoc]
        · rw [called_append, called_append, hcalled, hc, map_append]
          exact congrArg _ (append_nil _)
        · refine .asking rfl (sentBy acts) ?_ hsent rfl
          refine (up_append htaken _ _ _ _ _).trans ?_
          rw [up, nil_append, sentBy_append]
          rfl

end Messages

/-! ### Runs -/

/-- What the transfer promises: `send_checksum` is called for the files in tree order, all of them have
    had their call when ANOUBISD_UPGRADE_END is sent or handled, and every checksum sent was calculated. -/
structure Complete (sha : Text → Csum) (f : FileTree) (t : Transfer) : Prop where
  ordered : AtEach (Ordered f) t.upgrader.trace
  inOrder : called t.upgrader.trace <+: f.map Node.path
  done : t.done = true → called t.upgrader.trace = f.map Node.path
  sound : AtEach (Sound sha) t.upgrader.trace

/-- The kernel supplies the checksums of the regular files that the upgrade process opens while it
    handles a chunk. -/
def Supplies (t : Transfer) : TransferEvent → Prop
  | .upgrade answers =>
    match t.down with
    | .chunk chunk :: _ => chunk ≠ [] →
      t.upgrader.opens answers = true → ∀ k < (chunkPaths (terminated chunk)).length, (answers k).Supplied
    | _ => True
  | .policy _ | .relay => True

section Runs

variable {sha : Text → Csum} {f : FileTree} {t t' : Transfer}

theorem Inv.called_prefix (h : Inv f t) : called t.upgrader.trace <+: f.map Node.path := by
  cases hd : t.done with
  | true => exact (h.ended hd).1 ▸ prefix_rfl
  | false =>
    obtain ⟨-, -, pre, mid, rest, hf, hc, -, -⟩ := h.running hd
    refine ⟨(mid ++ rest).map Node.path, ?_⟩
    rw [hc, hf, ← map_append]

theorem inv_init {st : State} (h : Waiting f st) (dev : Option Bool) : Inv f (Transfer.init st dev) where
  ordered := atEach_nil _
  running := by
    intro _
    refine ⟨h, le_rfl, [], [], f, rfl, rfl, ?_, .starting rfl rfl rfl⟩
    have hidle : (Policy.mk st none).idleTree = some f := idleTree_of_waiting (p := ⟨st, none⟩) h
    rw [Transfer.init, Policy.filelistStart, hidle, bind_some]
  ended := by
    intro hd
    cases hd

theorem inv_step (hnd : (f.map Node.path).Nodup) (hpaths : ∀ n ∈ f, n.path.length < pathMax ∧ nul ∉ n.path)
    (h : Inv f t) {e : TransferEvent} (hs : t.step sha e = some t') : Inv f t' := by
  cases e with
  | policy e => exact inv_policy h hs
  | relay => exact inv_relay hnd (fun n hn => (hpaths n hn).1) h hs
  | upgrade answers => exact inv_upgrade (fun n hn => (hpaths n hn).2) h hs

/-- A message whose handling sends nothing but another message. -/
theorem sound_send {u : Upgrader} {m : Msg} (hm : m.isUpdate = false) :
    AtEach (Sound sha) (u.send m).trace ↔ AtEach (Sound sha) u.trace := by
  refine ⟨fun h => h.left, fun h => atEach_concat h ?_⟩
  cases m with
  | updateAll => cases hm
  | start | chunkReq | chunk | fin => trivial

/-- The checksums that a step sends are calculated exactly if the kernel supplies them. -/
theorem sound_step {e : TransferEvent} (h : AtEach (Sound sha) t.upgrader.trace)
    (hs : t.step sha e = some t') : AtEach (Sound sha) t'.upgrader.trace ↔ Supplies t e := by
  cases hd : t.done with
  | true => simp [Transfer.step, hd] at hs
  | false =>
    cases e with
    | policy e =>
      simp only [Transfer.step, hd, Bool.false_eq_true, if_false] at hs
      split at hs
      · cases hs
      · cases hs
        exact iff_of_true h trivial
    | relay =>
      simp only [Transfer.step, hd, Bool.false_eq_true, if_false] at hs
      split at hs
      · cases hs
      · cases hs
        exact iff_of_true h trivial
      · cases hs
        exact iff_of_true h trivial
    | upgrade answers =>
      cases hdown : t.down with
      | nil => simp [Transfer.step, hd, hdown] at hs
      | cons m down =>
        rw [step_upgrade hd hdown] at hs
        cases hs
        simp only [Supplies, hdown]
        cases m with
        | start => exact iff_of_true ((sound_send rfl).mpr h) trivial
        | chunkReq | fin | updateAll => exact iff_of_true h trivial
        | chunk chunk =>
          simp only [Upgrader.dispatchUpgrade]
          by_cases hc : chunk = []
          · rw [if_pos (length_eq_zero_iff.mpr hc), sound_send rfl]
            exact iff_of_true h fun hne => absurd hc hne
          · rw [if_neg (mt length_eq_zero_iff.mp hc), sound_send rfl, sound_sendChecksums answers _ 0 _ h]
            simp only [zero_add, ne_eq, hc, not_false_eq_true, true_implies]
            rfl

end Runs

/-- In every run from the start of the transfer, its promises hold behind each step exactly if the kernel
    supplies the checksums that it is asked for. -/
theorem upgrade_transfer (sha : Text → Csum) {st : State} {f : FileTree} (hw : Waiting f st)
    (hnd : (f.map Node.path).Nodup) (hpaths : ∀ n ∈ f, n.path.length < pathMax ∧ nul ∉ n.path)
    (dev : Option Bool) (es : List TransferEvent) :
    Along (Transfer.step sha) (fun t e => ∀ t', t.step sha e = some t' → Complete sha f t')
        (Transfer.init st dev) es ↔
      Along (Transfer.step sha) Supplies (Transfer.init st dev) es := by
  refine along_iff (I := fun t => Inv f t ∧ AtEach (Sound sha) t.upgrader.trace) (fun t e h => ?_)
    (fun t e t' h hp hs => ⟨inv_step hnd hpaths h.1 hs, (hp t' hs).sound⟩)
    ⟨inv_init hw dev, atEach_nil _⟩ es
  cases hs : t.step sha e with
  | none =>
    refine iff_of_true (fun t' h' => by cases h') ?_
    cases e with
    | policy e => trivial
    | relay => trivial
    | upgrade answers =>
      cases hdown : t.down with
      | nil => simp [Supplies, hdown]
      | cons m down =>
        cases hd : t.done with
        | true => cases hdown.symm.trans (h.1.ended hd).2
        | false => cases hs.symm.trans (step_upgrade hd hdown)
  | some t' =>
    rw [← sound_step h.2 hs]
    have hinv : Inv f t' := inv_step hnd hpaths h.1 hs
    constructor
    · intro hc
      exact (hc t' rfl).sound
    · intro hsound t₁ h₁
      obtain rfl := Option.some.inj h₁
      exact ⟨hinv.ordered, hinv.called_prefix, fun hd => (hinv.ended hd).1, hsound⟩

/-! ### One upgraded file -/

/-- The end of an upgrade with one file. -/
def oneFile : State := ⟨[], ⟨some [⟨"/f".toList, 0⟩], 0, true, false, 1⟩⟩

/-- A regular file that can be opened. -/
def regularFile (csum : Option Csum) : Answers :=
  ⟨true, some .regular, none, true, csum, Vector.replicate 32 255⟩

/-- Both processes handle all messages. -/
def oneFileRun (csum : Option Csum) : List TransferEvent :=
  [.upgrade fun _ => regularFile csum, .relay, .upgrade fun _ => regularFile csum] ++
    [.relay, .relay, .upgrade fun _ => regularFile csum, .relay]

/-- SHA-256 of a link; there is none. -/
def noLink (_ : Text) : Csum := Vector.replicate 32 0

theorem waiting_oneFile : Waiting [⟨"/f".toList, 0⟩] oneFile :=
  ⟨rfl, rfl, fun p hp => by cases hp⟩

theorem supplies_of_supplied {answers : ℕ → Answers} (h : ∀ k, (answers k).Supplied) (t : Transfer) :
    Supplies t (.upgrade answers) := by
  rw [Supplies]
  split
  · exact fun _ _ k _ => h k
  · trivial

/-- The kernel supplies the checksum. -/
theorem upgrade_transfer_oneFile :
    Along (Transfer.step noLink)
      (fun t e => ∀ t', t.step noLink e = some t' → Complete noLink [⟨"/f".toList, 0⟩] t')
      (Transfer.init oneFile none) (oneFileRun (some (Vector.replicate 32 7))) := by
  refine (upgrade_transfer noLink waiting_oneFile (by decide) (by decide) none _).mpr (along_of_mem ?_ _)
  have hgood : ∀ t, Supplies t (.upgrade fun _ => regularFile (some (Vector.replicate 32 7))) :=
    supplies_of_supplied fun _ _ _ h => by cases h
  intro e he t
  simp only [oneFileRun, List.cons_append, List.nil_append, List.mem_cons, List.not_mem_nil, or_false] at he
  rcases he with rfl | rfl | rfl | rfl | rfl | rfl | rfl
  · exact hgood t
  · trivial
  · exact hgood t
  · trivial
  · trivial
  · exact hgood t
  · trivial

/-- The kernel refuses the checksum: what was on the stack is sent as the checksum of the file. -/
theorem upgrade_transfer_stack :
    ((runs (Transfer.step noLink) (Transfer.init oneFile none) (oneFileRun none)).map
      fun t => (sentBy t.upgrader.trace, t.done)) =
        some ([.chunkReq, .updateAll "/f".toList (Vector.replicate 32 255), .chunkReq, .fin], true) ∧
    ¬ Along (Transfer.step noLink)
      (fun t e => ∀ t', t.step noLink e = some t' → Complete noLink [⟨"/f".toList, 0⟩] t')
      (Transfer.init oneFile none) (oneFileRun none) := by
  refine ⟨by decide +kernel, fun h => ?_⟩
  -- behind the call for the file
  have hrun : runs (Transfer.step noLink) (Transfer.init oneFile none)
      ([.upgrade fun _ => regularFile none, .relay] ++ [.upgrade fun _ => regularFile none]) =
        some ⟨⟨oneFile, none⟩, [], ⟨some true, [.send .chunkReq, .call "/f".toList (regularFile none)] ++
          .send (.updateAll "/f".toList (Vector.replicate 32 255)) :: [.send .chunkReq]⟩, 1, false⟩ := by
    decide +kernel
  have hcomplete := along_behind (along_append.mp h).1 hrun
  obtain ⟨a, ha, hcomp⟩ := hcomplete.sound _ _ _ rfl
  obtain ⟨-, rfl⟩ := Act.call.inj (Option.some.inj ha)
  rcases hcomp with ⟨hl, -⟩ | ⟨-, -, hs⟩
  · cases hl
  · cases hs

end Anoubis.Pe.Upgrade

import Anoubis.Pe.UpgradeBooks

/-! What is left in the upgrade tree at the end of an upgrade.

    The tree keeps one cookie for each path: zero once a parent wrote the file, and otherwise the cookie
    of the first writer. When the last parent ends, a file is dropped if the process with that cookie is
    still running. This is right for files with a single writer; where several children wrote a file,
    only the first of them is looked at.

        writes   (f, A)  (f, B)  (g, parent)        tree   f ↦ A   g ↦ 0
        A ended, B running                          kept   f, g                          -/

namespace Anoubis.Pe.Upgrade

open Anoubis.Apn Anoubis.Lib List

/-! ### The tree and the writes -/

/-- The cookie that the tree keeps for a path. -/
def stored (log : List Write) (path : Text) : Option ℕ :=
  let ws := log.filter (fun x => x.path = path)
  if ws.any (fun x => x.key = 0) then some 0 else ws.head?.map Write.key

/-- The tree after the writes of `log`. -/
structure Collects (log : List Write) (f : FileTree) : Prop where
  nodup : (f.map Node.path).Nodup
  mem : ∀ n, n ∈ f ↔ stored log n.path = some n.taskCookie

theorem collects_nil : Collects [] [] where
  nodup := nodup_nil
  mem := by simp [stored]

variable {log : List Write} {f : FileTree} {st : State}
variable {x : Write} {path : Text} {st' : State} {ws : List Write} {s : State × List Write}

theorem stored_append_ne (h : x.path ≠ path) : stored (log ++ [x]) path = stored log path := by
  simp [stored, h]

/-- The second writer of a path is not stored, unless its key is zero. -/
theorem stored_append_self (log : List Write) (x : Write) :
    stored (log ++ [x]) x.path = if x.key = 0 then some 0 else some ((stored log x.path).getD x.key) := by
  have hf : (log ++ [x]).filter (fun y => y.path = x.path) =
      log.filter (fun y => y.path = x.path) ++ [x] := by simp
  rw [stored, stored]
  simp only [hf, any_append, any_cons, any_nil, Bool.or_false]
  by_cases h0 : x.key = 0
  · simp [h0]
  · cases hany : (log.filter (fun y => y.path = x.path)).any (fun y => y.key = 0) with
    | true => simp [h0]
    | false =>
      cases hws : log.filter (fun y => y.path = x.path) with
      | nil => simp [h0]
      | cons y ws => simp [h0]

theorem find_eq_none_iff (h : Collects log f) (path : Text) :
    peFiletreeFind f path = none ↔ stored log path = none := by
  rw [peFiletreeFind, find?_eq_none]
  constructor
  · intro hn
    cases hs : stored log path with
    | none => rfl
    | some c =>
      have hm : (⟨path, c⟩ : Node) ∈ f := (h.mem ⟨path, c⟩).mpr hs
      exact absurd (by simp) (hn ⟨path, c⟩ hm)
  · intro hs n hn hp
    have hp : n.path = path := by simpa using hp
    rw [h.mem, hp, hs] at hn
    cases hn

/-- `pe_filetree_insert` follows the writes. -/
theorem collects_insert (h : Collects log f) (x : Write) :
    Collects (log ++ [x]) (peFiletreeInsert f x.path x.key) := by
  rw [peFiletreeInsert]
  cases hf : peFiletreeFind f x.path with
  | none =>
    have hs : stored log x.path = none := (find_eq_none_iff h x.path).mp hf
    have hp := perm_orderedInsert (fun e1 e2 => hashcmpLe e1 e2 = true) ⟨x.path, x.key⟩ f
    constructor
    · rw [(hp.map Node.path).nodup_iff, map_cons, nodup_cons]
      refine ⟨fun hm => ?_, h.nodup⟩
      obtain ⟨n, hn, he⟩ := mem_map.mp hm
      rw [h.mem, he, hs] at hn
      cases hn
    · rintro ⟨path, c⟩
      rw [hp.mem_iff, mem_cons, h.mem, Node.mk.injEq]
      by_cases hx : x.path = path
      · subst hx
        rw [stored_append_self, hs]
        by_cases h0 : x.key = 0
        · simp [h0, eq_comm]
        · simp [h0, eq_comm]
      · rw [stored_append_ne hx, or_iff_right fun hn => hx hn.1.symm]
  | some m =>
    have hm : m ∈ f := mem_of_find?_eq_some hf
    have hmp : m.path = x.path := by simpa using find?_some hf
    have hs : stored log x.path = some m.taskCookie := by
      rw [← hmp]
      exact (h.mem m).mp hm
    by_cases h0 : x.key = 0
    · rw [if_pos h0, h0]
      obtain ⟨rest, hl, hmod⟩ := exists_modifyFirst hf (fun n => { n with taskCookie := 0 })
      have hnd : (m.path :: rest.map Node.path).Nodup := (hl.map Node.path).nodup_iff.mp h.nodup
      have hrest : ∀ n ∈ rest, n.path ≠ x.path := by
        intro n hn hnp
        exact (nodup_cons.mp hnd).1 (mem_map.mpr ⟨n, hn, hnp.trans hmp.symm⟩)
      constructor
      · have hpaths := map_modifyFirst (g := Node.path) (f := fun n => { n with taskCookie := 0 })
          (fun _ => rfl) (fun n => n.path = x.path) f
        exact hpaths.symm ▸ h.nodup
      · intro n
        rw [hmod.mem_iff, mem_cons]
        by_cases hx : x.path = n.path
        · rw [← hx, stored_append_self, if_pos h0, or_iff_left fun hn => hrest n hn hx.symm, hmp, hx]
          cases n
          simp [eq_comm]
        · have hne : n ≠ m := fun he => hx (he ▸ hmp.symm)
          have hne' : n ≠ ⟨m.path, 0⟩ := fun he => hx (he ▸ hmp.symm)
          rw [stored_append_ne hx, ← h.mem, hl.mem_iff, mem_cons, or_iff_right hne, or_iff_right hne']
    · simp only [h0, if_false]
      refine ⟨h.nodup, fun n => ?_⟩
      rw [h.mem]
      by_cases hx : x.path = n.path
      · rw [← hx, stored_append_self, if_neg h0, hs]
        rfl
      · rw [stored_append_ne hx]

/-! ### Pruning -/

/-- The loop over the tree is a filter: the cookie of the last node that was kept changes nothing. -/
theorem prune_eq_filter {running : ℕ → Bool} {last : ℕ} (h : last = 0 ∨ running last = false) (f : FileTree) :
    prune running last f = f.filter (fun n => n.taskCookie = 0 || !running n.taskCookie) := by
  induction f generalizing last with
  | nil => rfl
  | cons it next ih =>
    rw [prune]
    by_cases hk : it.taskCookie = 0 ∨ it.taskCookie = last
    · rw [if_pos hk, ih h, filter_cons_of_pos]
      rcases hk with hk | hk
      · simp [hk]
      · rcases h with h | h
        · simp [hk, h]
        · simp [hk, h]
    · rw [if_neg hk]
      rw [not_or] at hk
      cases hr : running it.taskCookie with
      | true =>
        rw [if_pos rfl, ih h, filter_cons_of_neg]
        simp [hk.1, hr]
      | false =>
        rw [if_neg Bool.false_ne_true, ih (.inr hr), filter_cons_of_pos]
        simp [hr]

/-! ### What an event does to the tree -/

/-- The files that an event writes to the tree. -/
def written (st : State) : Config × Event → List Write
  | (_, .openFile cookie path amask haschecksum) => (writes st cookie path amask haschecksum).toList
  | _ => []

/-- The tree is empty at the start of an upgrade, collects the writes while the upgrade lasts, and is
    pruned at its end. -/
structure Grows (st st' : State) (ws : List Write) : Prop where
  start : st.g.upgradeCounter = 0 → 0 < st'.g.upgradeCounter → st'.g.upgradeTree = some []
  goesOn : 0 < st.g.upgradeCounter → 0 < st'.g.upgradeCounter →
    st'.g.upgradeTree = ws.foldl insertWrite st.g.upgradeTree
  ends : 0 < st.g.upgradeCounter → st'.g.upgradeCounter = 0 →
    ws = [] ∧ st'.g.upgradeTree = st.g.upgradeTree.map (prune st'.isRunning 0)

/-- The counter stays as it is. -/
theorem Grows.same (hc : st'.g.upgradeCounter = st.g.upgradeCounter)
    (ht : st'.g.upgradeTree = ws.foldl insertWrite st.g.upgradeTree) : Grows st st' ws where
  start := by
    intro h0 hpos
    omega
  goesOn := fun _ _ => ht
  ends := by
    intro hpos h0
    omega

/-- A step on the side before. -/
theorem Grows.after {st₁ : State} (h : Grows st₁ st' ws) (hc : st₁.g.upgradeCounter = st.g.upgradeCounter)
    (ht : st₁.g.upgradeTree = st.g.upgradeTree) : Grows st st' ws := by
  obtain ⟨hs, hg, he⟩ := h
  rw [hc] at hs hg he
  rw [ht] at hg he
  exact ⟨hs, hg, he⟩

theorem grows_start (h : Kept 0 st) (cookie : ℕ) : Grows st (st.start cookie) [] := by
  rw [State.start]
  rcases peUpgradeStart_cases st.g (st.get cookie) with ⟨-, he⟩ | ⟨-, -, -, he⟩ | ⟨-, hopen, he⟩
  · rw [he]
    exact Grows.same rfl rfl
  · rw [he]
    exact Grows.same rfl rfl
  · rw [he]
    constructor
    · intro h0 _
      rcases hopen with hn | hn
      · simp [hn]
      · exact absurd h0 hn
    · intro hpos _
      obtain ⟨f, hf⟩ := Option.isSome_iff_exists.mp (h.tree hpos)
      simp [hf]
    · intro hpos h0
      simp only at h0
      omega

theorem isRunning_map_clrmark (st : State) (g : Globals) (hg : g.haveTaskTracking = st.g.haveTaskTracking) :
    State.isRunning ⟨st.tracker.map Task.clrmark, g⟩ = st.isRunning := by
  funext cookie
  have hf : (hasCookie cookie) ∘ Task.clrmark = hasCookie cookie := rfl
  rw [State.isRunning, State.isRunning, State.get, State.get, find?_map, hf, hg]
  cases st.tracker.find? (hasCookie cookie) <;> rfl

theorem grows_endTail (st : State) (b : Bool) : Grows st (endTail st b) [] := by
  rw [endTail]
  cases b with
  | false => exact Grows.same rfl rfl
  | true =>
    simp only [Bool.not_true, Bool.false_eq_true, if_false]
    by_cases hpos : 0 < st.g.upgradeCounter - 1
    · rw [if_pos hpos]
      refine ⟨fun h0 _ => ?_, fun _ _ => rfl, fun _ h0 => ?_⟩
      · omega
      · simp only at h0
        omega
    · rw [if_neg hpos]
      refine ⟨fun _ h0 => absurd h0 hpos, fun _ h0 => absurd h0 hpos, fun _ _ => ⟨rfl, ?_⟩⟩
      simp only
      rw [isRunning_map_clrmark]
      rfl

theorem grows_end (st : State) (cookie : ℕ) : Grows st (st.end cookie) [] :=
  (grows_endTail _ _).after rfl rfl

theorem grows_exit (st : State) (cookie : ℕ) : Grows st (peProcExit st cookie) [] := by
  rw [peProcExit]
  cases st.get cookie with
  | none => exact Grows.same rfl rfl
  | some p =>
    simp only
    split
    · exact Grows.same rfl rfl
    · exact (grows_endTail _ _).after rfl rfl

/-- Every regular event treats the tree in this way. -/
theorem grows_step (h : Kept 0 st) (e : Config × Event) (hr : Regular st e) :
    Grows st (step st e) (written st e) := by
  have hsame : Grows st st [] := Grows.same rfl rfl
  obtain ⟨conf, e⟩ := e
  cases e with
  | lock cookie msgUid =>
    rcases lock_cases conf st cookie msgUid with he | ⟨he, -⟩
    · rw [step, he]
      exact hsame
    · rw [step, he]
      exact grows_start h cookie
  | unlock cookie msgUid =>
    rw [step, unlock]
    simp only
    split
    · exact grows_end st cookie
    · exact hsame
  | fork child parent => exact Grows.same rfl rfl
  | exec cookie uid pathhint =>
    rw [step, peProcExec]
    cases hg : (st.get cookie).isSome with
    | true =>
      simp only [if_true]
      split
      · exact grows_start h cookie
      · exact hsame
    | false =>
      simp only [Bool.false_eq_true, if_false]
      have ht : Good st { st with tracker := st.tracker ++ [newTask cookie] } :=
        good_track h rfl rfl fun hu => by cases hu
      split
      · exact (grows_start ht.kept cookie).after rfl rfl
      · exact Grows.same rfl rfl
  | exit cookie => exact grows_exit st cookie
  | replace keep gone => exact (grows_exit _ gone).after rfl rfl
  | create cookie => exact Grows.same rfl rfl
  | destroy cookie =>
    rw [step, peProcRemoveThread]
    cases st.get cookie with
    | none => exact Grows.same rfl rfl
    | some p =>
      simp only
      split
      · exact Grows.same rfl rfl
      · split
        · exact (grows_end _ cookie).after rfl rfl
        · exact Grows.same rfl rfl
  | openFile cookie path amask haschecksum =>
    rw [step, peHandleSfs, written]
    cases writes st cookie path amask haschecksum with
    | none => exact Grows.same rfl rfl
    | some x => exact Grows.same rfl rfl
  | finish =>
    have h0 : st.g.upgradeCounter = 0 := hr
    obtain ⟨-, ht, hnil, -, -⟩ := finish_spec h h0
    refine ⟨fun _ hpos => ?_, fun hpos _ => by omega, fun hpos _ => by omega⟩
    obtain ⟨f, hf⟩ := Option.isSome_iff_exists.mp (ht.mpr hpos)
    rw [step, hf, hnil f hf]
  | setUpgradeOk value => exact Grows.same rfl rfl

/-! ### Runs -/

/-- A step that also records the writes of the current upgrade. -/
def stepLog (s : State × List Write) (e : Config × Event) : State × List Write :=
  (step s.1 e, if s.1.g.upgradeCounter = 0 then [] else s.2 ++ written s.1 e)

def runLog (s : State × List Write) (es : List (Config × Event)) : State × List Write :=
  es.foldl stepLog s

theorem runLog_fst (s : State × List Write) (es : List (Config × Event)) : (runLog s es).1 = run s.1 es := by
  induction es generalizing s with
  | nil => rfl
  | cons e es ih => exact ih (stepLog s e)

/-- The tree of the upgrade in progress holds its writes. -/
structure Recorded (s : State × List Write) : Prop where
  kept : Kept 0 s.1
  tree : 0 < s.1.g.upgradeCounter → ∃ f, s.1.g.upgradeTree = some f ∧ Collects s.2 f

theorem collects_foldl (h : Collects log f) (ws : List Write) :
    ∃ f', ws.foldl insertWrite (some f) = some f' ∧ Collects (log ++ ws) f' := by
  induction ws generalizing log f with
  | nil => exact ⟨f, rfl, by rwa [append_nil]⟩
  | cons x ws ih =>
    obtain ⟨f', hf', hc⟩ := ih (collects_insert h x)
    refine ⟨f', hf', ?_⟩
    rwa [append_cons]

theorem recorded_step (h : Recorded s) (e : Config × Event) (hr : Regular s.1 e) : Recorded (stepLog s e) := by
  have hg := grows_step h.kept e hr
  refine ⟨(good_step h.kept e hr).kept, fun hpos => ?_⟩
  rw [stepLog]
  by_cases h0 : s.1.g.upgradeCounter = 0
  · rw [if_pos h0]
    exact ⟨[], hg.start h0 hpos, collects_nil⟩
  · rw [if_neg h0]
    have hpos₀ : 0 < s.1.g.upgradeCounter := lt_of_le_of_ne h.kept.nonneg (Ne.symm h0)
    obtain ⟨f, hf, hc⟩ := h.tree hpos₀
    obtain ⟨f', hf', hc'⟩ := collects_foldl hc (written s.1 e)
    refine ⟨f', ?_, hc'⟩
    have ht := hg.goesOn hpos₀ hpos
    rw [hf, hf'] at ht
    exact ht

theorem recorded_run (h : Recorded s) (es : List (Config × Event))
    (hr : Along (fun st e => some (step st e)) Regular s.1 es) : Recorded (runLog s es) := by
  induction es generalizing s with
  | nil => exact h
  | cons e es ih => exact ih (recorded_step h e hr.1) (hr.2 _ rfl)

/-- The state and the writes behind a run from the start of the daemon. -/
def history (es : List (Config × Event)) : State × List Write := runLog (State.init, []) es

/-- The path is in the upgrade tree. -/
def InTree (st : State) (path : Text) : Prop :=
  ∃ f, st.g.upgradeTree = some f ∧ ∃ n ∈ f, n.path = path

/-- The tree holds exactly the files that were written by a parent, or only by processes that are no
    longer running. -/
def PrunedRight (log : List Write) (st : State) : Prop :=
  ∀ path, InTree st path ↔
    (∃ x ∈ log, x.path = path ∧ x.parent) ∨
      ((∃ x ∈ log, x.path = path) ∧ ∀ x ∈ log, x.path = path → st.isRunning x.cookie = false)

/-- For a file that no parent wrote: if the first writer is no longer running, or a writer has the
    cookie zero, then none of the writers is running. -/
def FirstWriterDecides (log : List Write) (st : State) : Prop :=
  ∀ path, (∀ x ∈ log, x.path = path → x.parent = false) →
    ((∃ x, log.find? (fun x => x.path = path) = some x ∧ st.isRunning x.cookie = false) ∨
      ∃ x ∈ log, x.path = path ∧ x.cookie = 0) →
    ∀ x ∈ log, x.path = path → st.isRunning x.cookie = false

/-- A file of a parent is stored with the cookie zero. -/
theorem stored_of_parent (hx : x ∈ log) (hp : x.parent = true) : stored log x.path = some 0 := by
  have hk : x.key = 0 := by simp [Write.key, hp]
  have hany : (log.filter (fun y => y.path = x.path)).any (fun y => y.key = 0) = true := by
    rw [any_eq_true]
    exact ⟨x, by simpa using hx, by simpa using hk⟩
  rw [stored]
  simp only [hany, if_true]

/-- A file without a parent among its writers: which cookie is stored, and whether it is pruned. -/
theorem stored_kept_iff (running : ℕ → Bool) (hnp : ∀ x ∈ log, x.path = path → x.parent = false) :
    (∃ c, stored log path = some c ∧ (c = 0 ∨ running c = false)) ↔
      (∃ x, log.find? (fun x => x.path = path) = some x ∧ running x.cookie = false) ∨
        ∃ x ∈ log, x.path = path ∧ x.cookie = 0 := by
  have hkey : ∀ x ∈ log, x.path = path → x.key = x.cookie := by
    intro x hx hp
    simp [Write.key, hnp x hx hp]
  by_cases h0 : ∃ x ∈ log, x.path = path ∧ x.cookie = 0
  · obtain ⟨x, hx, hp, hc⟩ := h0
    have hany : (log.filter (fun y => y.path = path)).any (fun y => y.key = 0) = true := by
      rw [any_eq_true]
      exact ⟨x, by simpa using ⟨hx, hp⟩, by simpa [hkey x hx hp] using hc⟩
    refine ⟨fun _ => .inr ⟨x, hx, hp, hc⟩, fun _ => ⟨0, ?_, .inl rfl⟩⟩
    rw [stored]
    simp only [hany, if_true]
  · have hany : (log.filter (fun y => y.path = path)).any (fun y => y.key = 0) = false := by
      rw [any_eq_false]
      intro x hx hk
      rw [mem_filter] at hx
      have hp : x.path = path := by simpa using hx.2
      refine h0 ⟨x, hx.1, hp, ?_⟩
      rw [← hkey x hx.1 hp]
      simpa using hk
    have hst : stored log path = (log.find? (fun x => x.path = path)).map Write.key := by
      rw [stored]
      simp only [hany, Bool.false_eq_true, if_false, head?_filter]
    rw [or_iff_left h0, hst]
    cases hf : log.find? (fun x => x.path = path) with
    | none => simp
    | some x =>
      have hx : x ∈ log := mem_of_find?_eq_some hf
      have hp : x.path = path := by simpa using find?_some hf
      have hne : x.cookie ≠ 0 := fun hc => h0 ⟨x, hx, hp, hc⟩
      simp [hkey x hx hp, hne]

/-- What the pruned tree holds. -/
theorem inTree_iff (h : Collects log f) (ht : st.g.upgradeTree = some (prune st.isRunning 0 f)) (path : Text) :
    InTree st path ↔ ∃ c, stored log path = some c ∧ (c = 0 ∨ st.isRunning c = false) := by
  rw [prune_eq_filter (.inl rfl)] at ht
  constructor
  · rintro ⟨f', hf', n, hn, rfl⟩
    cases ht.symm.trans hf'
    rw [mem_filter, h.mem] at hn
    exact ⟨n.taskCookie, hn.1, by simpa using hn.2⟩
  · rintro ⟨c, hs, hc⟩
    refine ⟨_, ht, ⟨path, c⟩, ?_, rfl⟩
    rw [mem_filter, h.mem]
    exact ⟨hs, by simpa using hc⟩

theorem prunedRight_iff (h : Collects log f) (ht : st.g.upgradeTree = some (prune st.isRunning 0 f)) :
    PrunedRight log st ↔ FirstWriterDecides log st := by
  constructor
  · intro hr path hnp hfirst x hx hp
    have hin : InTree st path := (inTree_iff h ht path).mpr ((stored_kept_iff _ hnp).mpr hfirst)
    rcases (hr path).mp hin with ⟨y, hy, hyp, hpar⟩ | ⟨-, hall⟩
    · rw [hnp y hy hyp] at hpar
      cases hpar
    · exact hall x hx hp
  · intro hd path
    rw [inTree_iff h ht]
    by_cases hpar : ∃ x ∈ log, x.path = path ∧ x.parent
    · obtain ⟨x, hx, rfl, hxp⟩ := hpar
      exact ⟨fun _ => .inl ⟨x, hx, rfl, hxp⟩, fun _ => ⟨0, stored_of_parent hx hxp, .inl rfl⟩⟩
    · have hnp : ∀ x ∈ log, x.path = path → x.parent = false := by
        intro x hx hp
        by_contra hne
        exact hpar ⟨x, hx, hp, by simpa using hne⟩
      rw [or_iff_right hpar, stored_kept_iff _ hnp]
      constructor
      · intro hfirst
        refine ⟨?_, hd path hnp hfirst⟩
        rcases hfirst with ⟨x, hf, -⟩ | ⟨x, hx, hp, -⟩
        · exact ⟨x, mem_of_find?_eq_some hf, by simpa using find?_some hf⟩
        · exact ⟨x, hx, hp⟩
      · rintro ⟨⟨x, hx, hp⟩, hall⟩
        have hsome : (log.find? (fun x => x.path = path)).isSome := by
          rw [find?_isSome]
          exact ⟨x, hx, by simpa using hp⟩
        obtain ⟨y, hy⟩ := Option.isSome_iff_exists.mp hsome
        exact .inl ⟨y, hy, hall y (mem_of_find?_eq_some hy) (by simpa using find?_some hy)⟩

theorem recorded_init : Recorded (State.init, []) :=
  ⟨kept_init, fun h => absurd h (by decide)⟩

/-- The end of the last parent in a regular run: the tree with the writes of the upgrade is pruned. -/
theorem ends_of_run (es : List (Config × Event)) (e : Config × Event)
    (hr : Along (fun st e => some (step st e)) Regular State.init (es ++ [e]))
    (hlast : 0 < parents (run State.init es).tracker) (hend : parents (run State.init (es ++ [e])).tracker = 0) :
    ∃ f, (run State.init es).g.upgradeTree = some f ∧ Collects (history es).2 f ∧
      (run State.init (es ++ [e])).g.upgradeTree = some (prune (run State.init (es ++ [e])).isRunning 0 f) ∧
      Kept 0 (run State.init (es ++ [e])) ∧ (run State.init (es ++ [e])).g.upgradeCounter = 0 := by
  have hst : (history es).1 = run State.init es := runLog_fst _ es
  have hrun : run State.init (es ++ [e]) = step (history es).1 e := by
    rw [hst, run, foldl_append]
    rfl
  rw [along_append] at hr
  have hrec : Recorded (history es) := recorded_run recorded_init es hr.1
  have hreg : Regular (history es).1 e := by
    rw [hst]
    exact (hr.2 _ (runs_total step State.init es)).1
  have hpos : 0 < (history es).1.g.upgradeCounter := by
    rw [← hst] at hlast
    have hc := hrec.kept.counter
    omega
  have hkept : Kept 0 (run State.init (es ++ [e])) := by
    rw [hrun]
    exact (good_step hrec.kept e hreg).kept
  have h0 : (run State.init (es ++ [e])).g.upgradeCounter = 0 := by
    have hc := hkept.counter
    omega
  obtain ⟨f, hf, hcol⟩ := hrec.tree hpos
  obtain ⟨-, ht⟩ := (grows_step hrec.kept e hreg).ends hpos (hrun ▸ h0)
  rw [hf, ← hrun] at ht
  exact ⟨f, hst ▸ hf, hcol, ht, hkept, h0⟩

/-- In a regular run, the tree is pruned right at the end of an upgrade exactly if for every file of
    its children the first writer speaks for all of them. -/
theorem upgrade_prune (es : List (Config × Event)) (e : Config × Event)
    (hr : Along (fun st e => some (step st e)) Regular State.init (es ++ [e]))
    (hlast : 0 < parents (run State.init es).tracker)
    (hend : parents (run State.init (es ++ [e])).tracker = 0) :
    PrunedRight (history es).2 (run State.init (es ++ [e])) ↔
      FirstWriterDecides (history es).2 (run State.init (es ++ [e])) := by
  obtain ⟨f, -, hcol, ht, -, -⟩ := ends_of_run es e hr hlast hend
  exact prunedRight_iff hcol ht

/-- An upgrade with one parent and two children that write the same file. -/
def twoWriters : List (Config × Event) :=
  [(⟨.strictLock, []⟩, .exec 1 0 none), (⟨.strictLock, []⟩, .create 1),
   (⟨.strictLock, []⟩, .lock 1 0),
   (⟨.strictLock, []⟩, .fork 2 1), (⟨.strictLock, []⟩, .create 2),
   (⟨.strictLock, []⟩, .fork 3 1), (⟨.strictLock, []⟩, .create 3),
   (⟨.strictLock, []⟩, .openFile 2 (some "/f".toList) sbaWrite true),
   (⟨.strictLock, []⟩, .destroy 2), (⟨.strictLock, []⟩, .exit 2),
   (⟨.strictLock, []⟩, .openFile 3 (some "/f".toList) sbaWrite true)]

/-- The run is regular and ends with the last parent. -/
theorem upgrade_prune_twoWriters :
    PrunedRight (history twoWriters).2
        (run State.init (twoWriters ++ [(⟨.strictLock, []⟩, .unlock 1 0)])) ↔
      FirstWriterDecides (history twoWriters).2
        (run State.init (twoWriters ++ [(⟨.strictLock, []⟩, .unlock 1 0)])) :=
  upgrade_prune twoWriters (⟨.strictLock, []⟩, .unlock 1 0) (by decide +kernel) (by decide) (by decide)

/-- The last parent ends while the second writer of the file is running, and the file stays. -/
theorem upgrade_prune_fail :
    ¬ ∀ (es : List (Config × Event)) (e : Config × Event), 0 < parents (run State.init es).tracker →
      parents (run State.init (es ++ [e])).tracker = 0 →
      PrunedRight (history es).2 (run State.init (es ++ [e])) := by
  intro h
  have hr := h twoWriters (⟨.strictLock, []⟩, .unlock 1 0) (by decide) (by decide) "/f".toList
  have hin : InTree (run State.init (twoWriters ++ [(⟨.strictLock, []⟩, .unlock 1 0)])) "/f".toList :=
    ⟨[⟨"/f".toList, 2⟩], by decide +kernel, _, List.mem_singleton_self _, rfl⟩
  rcases hr.mp hin with hpar | ⟨-, hall⟩
  · exact absurd hpar (by decide +kernel)
  · exact absurd (hall ⟨"/f".toList, 3, false⟩ (by decide +kernel) rfl) (by decide +kernel)

end Anoubis.Pe.Upgrade

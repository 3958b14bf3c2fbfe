import Anoubis.Lib.Holes
import Anoubis.Sfssig.FilterRequests

/-! Which names are left by the filters.

    A name is to be left where it has the wanted type and all selected filters accept the answer for its path. The
    code removes it where the callback of some request refuses the answer for the path that it has in the list. The
    two come apart in three ways:

        hassig, upgraded    node getsig2, callback hassig       upgraded is not looked at
        /l → /d             /l is asked for as /d               the answer is not found under /l
        d and d/            both have the path /p/d             d/ is removed with d

    They agree for a list if and only if none of this makes a difference for its entries. -/

namespace Anoubis.Sfssig

open Anoubis.Lib List
open Anoubis.Connection (Bytes)

variable (E : Env) (uid : ℕ) (D : Daemon)

/-! ### The property -/

/-- The group of a filter. -/
def Filter.group : Filter → Group
  | .hassum | .nosum => .sum
  | .hassig | .nosig | .upgraded => .sig

/-- The filter accepts the answer of the daemon for a path. -/
def accepts (f : Filter) (p : Bytes) : Prop :=
  ∃ q, groupQuery E uid f.group = some q ∧ f.callback (D.answer q p) = true

/-- An entry is to be left: it is empty or a directory; or the file has the wanted type, and all selected filters
    accept the answer for its path. -/
def Keeps (path : Option Bytes) (arg : Bytes) : Prop :=
  isName arg = false ∨ wantedType E (argPath path arg) = true ∧
    ∀ f, E.opts.selected f = true → ∃ p, sfsRealpath E.fs (argPath path arg) = some p ∧ accepts E uid D f p

/-! ### The condition -/

/-- No filter needs a key that is not there. -/
def HasKeys : Prop := ∀ f, E.opts.selected f = true → (groupQuery E uid f.group).isSome

/-- The names for which requests are made. -/
def Wanted (path : Option Bytes) (arg : Bytes) : Prop := isName arg = true ∧ wantedType E (argPath path arg) = true

/-- Some request asks for a path: a request from an earlier call, or one for a name of the list. -/
def Asked (list : List Bytes) (path : Option Bytes) (tree : FilterTree) (q : Query) (p : Bytes) : Prop :=
  Asks tree q p ∨ ∃ arg ∈ list, Wanted E path arg ∧ sfsRealpath E.fs (argPath path arg) = some p ∧
    ∃ g, (firstOf E g).isSome ∧ groupQuery E uid g = some q

/-- The first selected filter of a group does not accept the answer for a path that is asked for. -/
def Refused (list : List Bytes) (path : Option Bytes) (tree : FilterTree) (p : Bytes) : Prop :=
  ∃ g q f, groupQuery E uid g = some q ∧ firstOf E g = some f ∧ Asked E uid list path tree q p ∧
    f.callback (D.answer q p) = false

/-- Requests do for an entry what the filters say. -/
structure Clean (list : List Bytes) (path : Option Bytes) (tree : FilterTree) (arg : Bytes) : Prop where
  /-- No request removes an empty entry or a directory. -/
  entry : isName arg = false → ¬ Refused E uid D list path tree (argPath path arg)
  /-- A name with its real path: what the first filters accept is accepted by all. -/
  own : Wanted E path arg → HasKeys E uid → sfsRealpath E.fs (argPath path arg) = some (argPath path arg) →
    (∀ g f, firstOf E g = some f → accepts E uid D f (argPath path arg)) →
    ∀ f, E.opts.selected f = true → accepts E uid D f (argPath path arg)
  /-- Another name: all filters accept the answer for its real path if and only if no request refuses its path. -/
  moved : Wanted E path arg → HasKeys E uid → ∀ p, sfsRealpath E.fs (argPath path arg) = some p →
    p ≠ argPath path arg → ((∀ f, E.opts.selected f = true → accepts E uid D f p) ↔
      ¬ Refused E uid D list path tree (argPath path arg))

variable {E uid D} {tree tree' : FilterTree} {q : Query} {p arg : Bytes} {path : Option Bytes} {list : List Bytes}
  {g : Group} {f : Filter}

/-! ### Groups -/

theorem mem_filters : f ∈ g.filters ↔ f.group = g := by
  cases f <;> cases g <;> decide

theorem firstOf_selected (h : firstOf E g = some f) : E.opts.selected f = true ∧ f.group = g :=
  ⟨find?_some h, mem_filters.mp (mem_of_find?_eq_some h)⟩

theorem firstOf_isSome (h : E.opts.selected f = true) : (firstOf E f.group).isSome := by
  rw [firstOf, find?_isSome]
  exact ⟨f, mem_filters.mpr rfl, h⟩

/-- Some filter needs a key that is not there. -/
theorem not_hasKeys : ¬ HasKeys E uid ↔ ∃ g, (firstOf E g).isSome ∧ groupQuery E uid g = none := by
  constructor
  · intro h
    obtain ⟨f, h⟩ := not_forall.mp h
    obtain ⟨hf, hq⟩ := Classical.not_imp.mp h
    exact ⟨f.group, firstOf_isSome hf, Option.not_isSome_iff_eq_none.mp hq⟩
  · rintro ⟨g, hg, hq⟩ h
    obtain ⟨f, hf⟩ := Option.isSome_iff_exists.mp hg
    obtain ⟨hsel, rfl⟩ := firstOf_selected hf
    have hsome := h f hsel
    rw [hq] at hsome
    cases hsome

/-! ### One file -/

/-- The tree behind `filter_a_file`. -/
theorem own_groupRun {altpath : Bytes} {r r' : ℤ × FilterTree} (h : GroupRun E uid g altpath r r')
    (hown : Own E uid r.2) : Own E uid r'.2 := by
  cases h with
  | idle _ => exact hown
  | noKey _ _ => exact hown
  | failed _ _ _ _ _ => exact hown
  | added _ _ _ _ _ _ hown' _ => exact hown'

theorem own_addSelected {altpath : Bytes} {r : ℤ × FilterTree} (hown : Own E uid r.2) :
    Own E uid (addSelected E uid g altpath g.filters r).2 := by
  obtain ⟨ret, tree⟩ := r
  by_cases hret : ret = 0
  · rw [hret, addSelected_zero]
    exact hown
  · exact own_groupRun (groupRun hown hret) hown

theorem own_filterAFile (hown : Own E uid tree) : Own E uid (filterAFile E uid arg path tree).2 :=
  own_addSelected (own_addSelected hown)

/-- What `filter_a_file` has done where it returns no error. -/
structure FileAdded (E : Env) (uid : ℕ) (arg : Bytes) (path : Option Bytes) (tree : FilterTree) (ret : ℤ)
    (tree' : FilterTree) : Prop where
  left : ret ≠ 0 ↔ wantedType E (argPath path arg) = true ∧ HasKeys E uid
  realpath : wantedType E (argPath path arg) = true → HasKeys E uid → ∀ g, (firstOf E g).isSome →
    (sfsRealpath E.fs (argPath path arg)).isSome
  asks : ∀ q p, Asks tree' q p ↔ Asks tree q p ∨ wantedType E (argPath path arg) = true ∧
    sfsRealpath E.fs (argPath path arg) = some p ∧ ∃ g, (firstOf E g).isSome ∧ groupQuery E uid g = some q

theorem no_key (h : ¬ HasKeys E uid) : (firstOf E .sig).isSome ∧ groupQuery E uid .sig = none := by
  obtain ⟨g, hg, hq⟩ := not_hasKeys.mp h
  cases g with
  | sum => cases hq
  | sig => exact ⟨hg, hq⟩

section GroupRuns

variable {altpath : Bytes} {r r' : ℤ × FilterTree}

/-- A path that a group adds is in its request, unless the key is bad. -/
theorem GroupRun.asks (h : GroupRun E uid g altpath r r')
    (hkey : r'.1 < 0 → ∀ q, groupQuery E uid g = some q → q.keyid ≠ some []) (q : Query) (p : Bytes) :
    Asks r'.2 q p ↔ Asks r.2 q p ∨
      sfsRealpath E.fs altpath = some p ∧ (firstOf E g).isSome ∧ groupQuery E uid g = some q := by
  cases h with
  | idle hnone => simp [hnone]
  | noKey _ hq => simp [hq]
  | failed e _ he _ hbad =>
    rcases hbad with hbad | ⟨q', hq', hkeyid⟩
    · simp [hbad]
    · exact absurd hkeyid (hkey he q' hq')
  | added q' p' tree hsome hq hp _ hasks =>
    rw [hasks, hq, hp, Option.some.injEq, Option.some.injEq]
    refine or_congr_right ⟨?_, ?_⟩
    · rintro ⟨rfl, rfl⟩
      exact ⟨rfl, hsome, rfl⟩
    · rintro ⟨rfl, -, rfl⟩
      exact ⟨rfl, rfl⟩

/-- A group with a key whose paths and keys are good. -/
theorem GroupRun.pos (h : GroupRun E uid g altpath r r') (hret : 0 < r'.1) :
    0 < r.1 ∧ firstOf E g = none ∨ (groupQuery E uid g).isSome ∧ (sfsRealpath E.fs altpath).isSome := by
  cases h with
  | idle hnone => exact .inl ⟨hret, hnone⟩
  | noKey _ _ => exact absurd hret (Int.lt_irrefl 0)
  | failed e _ he _ _ => exact absurd hret (by dsimp only; omega)
  | added q p _ _ hq hp _ _ => exact .inr ⟨by rw [hq]; rfl, by rw [hp]; rfl⟩

theorem GroupRun.zero (h : GroupRun E uid g altpath r r') (hret : r'.1 = 0) (hr : r.1 ≠ 0) :
    (firstOf E g).isSome ∧ groupQuery E uid g = none := by
  cases h with
  | idle _ => exact absurd hret hr
  | noKey hsome hq => exact ⟨hsome, hq⟩
  | failed e _ he _ _ => exact absurd hret (by dsimp only; omega)
  | added _ _ _ _ _ _ _ _ => exact absurd hret Int.one_ne_zero

end GroupRuns

theorem filterAFile_spec (hown : Own E uid tree) (hret : 0 ≤ (filterAFile E uid arg path tree).1) :
    FileAdded E uid arg path tree (filterAFile E uid arg path tree).1 (filterAFile E uid arg path tree).2 := by
  rw [filterAFile] at hret ⊢
  cases ht : wantedType E (argPath path arg) with
  | false =>
    rw [if_neg Bool.false_ne_true, addSelected_zero, addSelected_zero]
    exact ⟨by simp [ht], fun h => absurd (ht.symm.trans h) Bool.false_ne_true, by simp [ht]⟩
  | true =>
    rw [ht, if_pos rfl] at hret
    rw [if_pos rfl]
    generalize hr₁ : addSelected E uid .sum (argPath path arg) Group.sum.filters (1, tree) = r₁ at hret ⊢
    generalize hr₂ : addSelected E uid .sig (argPath path arg) Group.sig.filters r₁ = r₂ at hret ⊢
    have hsum : GroupRun E uid .sum (argPath path arg) (1, tree) r₁ := hr₁ ▸ groupRun hown Int.one_ne_zero
    have hne : r₁.1 ≠ 0 := fun h => nomatch (hsum.zero h Int.one_ne_zero).2
    have hsig : GroupRun E uid .sig (argPath path arg) r₁ r₂ := hr₂ ▸ groupRun (own_groupRun hsum hown) hne
    have hpos : HasKeys E uid → 0 < r₂.1 := fun hkeys => by
      rcases Int.lt_or_eq_of_le hret with hlt | heq
      · exact hlt
      · exact absurd hkeys (not_hasKeys.mpr ⟨.sig, hsig.zero heq.symm hne⟩)
    have hsig_ne : ¬ HasKeys E uid → r₂.1 = 0 := fun hkeys => by
      obtain ⟨hsome, hq⟩ := no_key hkeys
      cases hsig with
      | idle hnone => exact absurd hnone (Option.isSome_iff_ne_none.mp hsome)
      | noKey _ _ => rfl
      | failed _ _ _ hq' _ => exact absurd hq (Option.isSome_iff_ne_none.mp hq')
      | added _ _ _ _ hq' _ _ _ => exact nomatch hq.symm.trans hq'
    refine ⟨?_, fun _ hkeys g hg => ?_, fun q p => ?_⟩
    · by_cases hkeys : HasKeys E uid
      · exact iff_of_true (Int.ne_of_gt (hpos hkeys)) ⟨ht, hkeys⟩
      · exact iff_of_false (not_not.mpr (hsig_ne hkeys)) fun h => hkeys h.2
    · rcases hsig.pos (hpos hkeys) with ⟨hpos₁, hnone⟩ | ⟨-, hp⟩
      · rcases hsum.pos hpos₁ with ⟨-, hnone'⟩ | ⟨-, hp⟩
        · cases g with
          | sum => exact absurd hnone' (Option.isSome_iff_ne_none.mp hg)
          | sig => exact absurd hnone (Option.isSome_iff_ne_none.mp hg)
        · exact hp
      · exact hp
    · have hsum_asks := hsum.asks (fun _ q hq => by rw [← Option.some.inj hq]; nofun) q p
      have hsig_asks := hsig.asks (fun hlt => absurd hret (Int.not_le.mpr hlt)) q p
      rw [hsig_asks, hsum_asks, or_assoc]
      refine or_congr_right ⟨?_, ?_⟩
      · rintro (⟨hp, h⟩ | ⟨hp, h⟩)
        · exact ⟨ht, hp, .sum, h⟩
        · exact ⟨ht, hp, .sig, h⟩
      · rintro ⟨-, hp, g, h⟩
        cases g with
        | sum => exact .inl ⟨hp, h⟩
        | sig => exact .inr ⟨hp, h⟩

/-! ### The two loops -/

theorem own_addNames (hown : Own E uid tree) : Own E uid (addNames E uid path list tree).tree := by
  induction list generalizing tree with
  | nil => exact hown
  | cons arg list ih =>
    rw [addNames]
    split
    · dsimp only
      split
      · exact own_filterAFile hown
      · exact ih (own_filterAFile hown)
    · exact ih hown

/-- What the first loop has done where it ends without an error. -/
structure NamesAdded (E : Env) (uid : ℕ) (path : Option Bytes) (list : List Bytes) (tree : FilterTree)
    (out : ListOut) : Prop where
  leaves : Leaves (fun arg => isName arg = false ∨ wantedType E (argPath path arg) = true ∧ HasKeys E uid) list
    out.list
  realpath : ∀ arg ∈ list, Wanted E path arg → HasKeys E uid → ∀ g, (firstOf E g).isSome →
    (sfsRealpath E.fs (argPath path arg)).isSome
  asks : ∀ q p, Asks out.tree q p ↔ Asked E uid list path tree q p

theorem asked_nil : Asked E uid [] path tree q p ↔ Asks tree q p := by
  simp [Asked]

theorem asked_cons : Asked E uid (arg :: list) path tree q p ↔ (Asks tree q p ∨ Wanted E path arg ∧
    sfsRealpath E.fs (argPath path arg) = some p ∧ ∃ g, (firstOf E g).isSome ∧ groupQuery E uid g = some q) ∨
      ∃ arg ∈ list, Wanted E path arg ∧ sfsRealpath E.fs (argPath path arg) = some p ∧
        ∃ g, (firstOf E g).isSome ∧ groupQuery E uid g = some q := by
  rw [Asked, exists_mem_cons_iff, or_assoc]

theorem addNames_spec (hown : Own E uid tree) (hret : (addNames E uid path list tree).ret = 0) :
    NamesAdded E uid path list tree (addNames E uid path list tree) := by
  induction list generalizing tree with
  | nil => exact ⟨leaves_nil, fun arg harg => absurd harg not_mem_nil, fun q p => asked_nil.symm⟩
  | cons arg list ih =>
    rw [addNames] at hret ⊢
    cases hname : isName arg with
    | false =>
      rw [hname, if_neg Bool.false_ne_true] at hret
      rw [if_neg Bool.false_ne_true]
      obtain ⟨hleaves, hrealpath, hasks⟩ := ih hown hret
      have hwanted : ¬ Wanted E path arg := fun h => Bool.false_ne_true (hname.symm.trans h.1)
      refine ⟨hleaves.cons_some (.inl hname), forall_mem_cons.mpr ⟨fun h => absurd h hwanted, hrealpath⟩,
        fun q p => ?_⟩
      rw [hasks, asked_cons, Asked]
      simp [hwanted]
    | true =>
      rw [hname, if_pos rfl] at hret
      rw [if_pos rfl]
      dsimp only at hret ⊢
      split at hret
      · rename_i hneg
        dsimp only at hret
        omega
      · rename_i hpos
        rw [if_neg hpos]
        have hfile := filterAFile_spec hown (Int.not_lt.mp hpos)
        obtain ⟨hleaves, hrealpath, hasks⟩ := ih (own_filterAFile hown) hret
        refine ⟨?_, forall_mem_cons.mpr ⟨fun h => hfile.realpath h.2, hrealpath⟩, fun q p => ?_⟩
        · by_cases hzero : (filterAFile E uid arg path tree).1 = 0
          · dsimp only
            rw [if_pos hzero]
            refine hleaves.cons_none fun h => hfile.left.mpr (h.resolve_left ?_) hzero
            rw [hname]
            exact Bool.noConfusion
          · dsimp only
            rw [if_neg hzero]
            exact hleaves.cons_some (.inr (hfile.left.mp hzero))
        · have hwanted : Wanted E path arg ↔ wantedType E (argPath path arg) = true := and_iff_right hname
          rw [hasks, asked_cons, Asked, hfile.asks, hwanted]

/-- A request refuses a path. -/
theorem refuses_iff {node : Node} : refuses D node p = true ↔
    p ∈ node.paths ∧ node.callback.callback (D.answer (query node.req) p) = false := by
  rw [refuses, any_eq_true, Node.paths, mem_map]
  constructor
  · rintro ⟨record, hmem, h⟩
    obtain ⟨hpath, hrefused⟩ := (Bool.and_eq_true _ _).mp h
    obtain rfl := of_decide_eq_true hpath
    exact ⟨⟨record, hmem, rfl⟩, Bool.not_eq_true' _ ▸ hrefused⟩
  · rintro ⟨⟨record, hmem, rfl⟩, h⟩
    exact ⟨record, hmem, by simp [h]⟩

theorem not_refused_iff (hown : Own E uid tree') (hasks : ∀ q p, Asks tree' q p ↔ Asked E uid list path tree q p) :
    (∀ node ∈ tree', refuses D node p = false) ↔ ¬ Refused E uid D list path tree p := by
  constructor
  · rintro h ⟨g, q, f, hq, hf, hasked, hrefused⟩
    obtain ⟨node, hnode, rfl, hp⟩ := (hasks q p).mpr hasked
    obtain ⟨g', hbelongs⟩ := hown node hnode
    obtain ⟨rfl, -⟩ := groupQuery_unique hq hbelongs.asks rfl
    obtain rfl := Option.some.inj (hf.symm.trans hbelongs.callback)
    exact Bool.false_ne_true ((h node hnode).symm.trans (refuses_iff.mpr ⟨hp, hrefused⟩))
  · intro h node hnode
    obtain ⟨g, hbelongs⟩ := hown node hnode
    refine Bool.eq_false_iff.mpr fun hrefuses => h ?_
    obtain ⟨hp, hrefused⟩ := refuses_iff.mp hrefuses
    exact ⟨g, _, _, hbelongs.asks, hbelongs.callback, (hasks _ _).mp ⟨node, hnode, rfl, hp⟩, hrefused⟩

theorem processNodes_spec {K : Bytes → Prop} {entries : List (Option Bytes)} (hleaves : Leaves K list entries)
    (hret : (processNodes D path tree entries).ret = 0) :
    Leaves (fun arg => K arg ∧ ∀ node ∈ tree, refuses D node (argPath path arg) = false) list
      (processNodes D path tree entries).list := by
  induction tree generalizing K entries with
  | nil =>
    refine hleaves.iff.mpr fun arg _ => ?_
    simp
  | cons node tree ih =>
    rw [processNodes] at hret ⊢
    split at hret
    · rename_i hserve
      rw [if_pos hserve]
      refine (ih (hleaves.remove fun arg => refuses D node (argPath path arg)) hret).iff.mpr fun arg _ => ?_
      rw [forall_mem_cons, and_assoc]
    · exact absurd hret Int.one_ne_zero

theorem own_processNodes {entries : List (Option Bytes)} (hown : Own E uid tree) :
    Own E uid (processNodes D path tree entries).tree := by
  induction tree generalizing entries with
  | nil => exact hown
  | cons node tree ih =>
    have hrest : Own E uid tree := fun n hn => hown n (mem_cons_of_mem _ hn)
    rw [processNodes]
    split
    · exact ih hrest
    · exact hrest

/-! ### Results -/

/-- The requests that are left belong to the groups, also after an error. -/
theorem own_filterFileList (hown : Own E uid tree) : Own E uid (filterFileList E uid D list path tree).tree := by
  rw [filterFileList]
  split
  · exact hown
  · dsimp only
    split
    · exact own_addNames hown
    · exact own_processNodes (own_addNames hown)

/-- What the code leaves. -/
theorem filterFileList_leaves (hown : Own E uid tree) (hret : (filterFileList E uid D list path tree).ret = 0) :
    Leaves (fun arg => (isName arg = false ∨ wantedType E (argPath path arg) = true ∧ HasKeys E uid) ∧
      ¬ Refused E uid D list path tree (argPath path arg)) list (filterFileList E uid D list path tree).list ∧
    ∀ arg ∈ list, Wanted E path arg → HasKeys E uid → ∀ g, (firstOf E g).isSome →
      (sfsRealpath E.fs (argPath path arg)).isSome := by
  rw [filterFileList] at hret ⊢
  split at hret
  · rename_i hnil
    subst hnil
    rw [if_pos rfl]
    exact ⟨leaves_nil, fun arg harg => absurd harg not_mem_nil⟩
  · rename_i hne
    rw [if_neg hne]
    dsimp only at hret ⊢
    split at hret
    · rename_i herror
      exact absurd hret herror
    · rename_i hadded
      rw [if_neg hadded]
      obtain ⟨hleaves, hrealpath, hasks⟩ := addNames_spec hown (not_not.mp hadded)
      refine ⟨(processNodes_spec hleaves hret).iff.mpr fun arg _ => ?_, hrealpath⟩
      rw [not_refused_iff (own_addNames hown) hasks]

/-- Where all keys are there, the filters accept a file if they accept the answer for its real path. -/
theorem keeps_realpath (hwanted : Wanted E path arg) (hp : sfsRealpath E.fs (argPath path arg) = some p) :
    Keeps E uid D path arg ↔ ∀ f, E.opts.selected f = true → accepts E uid D f p := by
  rw [Keeps, hwanted.1, hwanted.2, hp]
  simp

theorem keeps_unfiltered (hwanted : Wanted E path arg) (hnone : ∀ f, E.opts.selected f ≠ true) :
    Keeps E uid D path arg :=
  .inr ⟨hwanted.2, fun f hf => absurd hf (hnone f)⟩

theorem not_refused_unfiltered (hnone : ∀ f, E.opts.selected f ≠ true) : ¬ Refused E uid D list path tree p := by
  rintro ⟨g, -, f, -, hf, -⟩
  exact hnone f (firstOf_selected hf).1

/-- The path of a name with its real path is in the request of each group. -/
theorem not_refused_own (harg : arg ∈ list) (hwanted : Wanted E path arg) (hkeys : HasKeys E uid)
    (hp : sfsRealpath E.fs (argPath path arg) = some (argPath path arg)) :
    ¬ Refused E uid D list path tree (argPath path arg) ↔
      ∀ g f, firstOf E g = some f → accepts E uid D f (argPath path arg) := by
  constructor
  · intro h g f hf
    obtain ⟨hsel, rfl⟩ := firstOf_selected hf
    obtain ⟨q, hq⟩ := Option.isSome_iff_exists.mp (hkeys f hsel)
    refine ⟨q, hq, Bool.not_eq_false _ ▸ fun hrefused => h ?_⟩
    exact ⟨_, q, f, hq, hf, .inr ⟨arg, harg, hwanted, hp, _, by rw [hf]; rfl, hq⟩, hrefused⟩
  · rintro h ⟨g, q, f, hq, hf, -, hrefused⟩
    obtain ⟨q', hq', haccept⟩ := h g f hf
    obtain ⟨-, rfl⟩ := firstOf_selected hf
    cases hq.symm.trans hq'
    exact Bool.false_ne_true (hrefused.symm.trans haccept)

theorem clean_of_entry (hname : isName arg = false) (h : ¬ Refused E uid D list path tree (argPath path arg)) :
    Clean E uid D list path tree arg := by
  have hwanted : ¬ Wanted E path arg := fun hw => Bool.false_ne_true (hname.symm.trans hw.1)
  exact ⟨fun _ => h, fun hw => absurd hw hwanted, fun hw => absurd hw hwanted⟩

/-- A name of the wanted type. -/
theorem clean_iff_wanted (harg : arg ∈ list) (hwanted : Wanted E path arg) (hkeys : HasKeys E uid)
    (hrealpath : ∀ g, (firstOf E g).isSome → (sfsRealpath E.fs (argPath path arg)).isSome) :
    (¬ Refused E uid D list path tree (argPath path arg) ↔ Keeps E uid D path arg) ↔
      Clean E uid D list path tree arg := by
  have hentry : isName arg ≠ false := by simp [hwanted.1]
  by_cases hnone : ∀ f, E.opts.selected f ≠ true
  · have hrefused : ¬ Refused E uid D list path tree (argPath path arg) := not_refused_unfiltered hnone
    have haccepts : ∀ p f, E.opts.selected f = true → accepts E uid D f p := fun _ f hf => absurd hf (hnone f)
    exact iff_of_true (iff_of_true hrefused (keeps_unfiltered hwanted hnone)) ⟨fun h => absurd h hentry,
      fun _ _ _ _ => haccepts _, fun _ _ p _ _ => iff_of_true (haccepts p) hrefused⟩
  · obtain ⟨f, hf⟩ := not_forall.mp hnone
    obtain ⟨p, hp⟩ := Option.isSome_iff_exists.mp (hrealpath f.group (firstOf_isSome (not_not.mp hf)))
    rw [keeps_realpath hwanted hp]
    by_cases hpath : p = argPath path arg
    · rw [hpath] at hp ⊢
      rw [not_refused_own harg hwanted hkeys hp]
      constructor
      · exact fun h => ⟨fun hname => absurd hname hentry, fun _ _ _ => h.mp, fun _ _ p' hp' hne =>
          absurd (Option.some.inj (hp'.symm.trans hp)) hne⟩
      · exact fun h => ⟨h.own hwanted hkeys hp, fun h g f hf => h f (firstOf_selected hf).1⟩
    · constructor
      · refine fun h => ⟨fun hname => absurd hname hentry, fun _ _ hp' => ?_, fun _ _ p' hp' _ => ?_⟩
        · exact absurd (Option.some.inj (hp.symm.trans hp')) hpath
        · cases hp.symm.trans hp'
          exact h.symm
      · exact fun h => (h.moved hwanted hkeys p hp hpath).symm

/-- What the code leaves is what is to be left, for one entry of a list. -/
theorem clean_iff (harg : arg ∈ list) (hrealpath : Wanted E path arg → HasKeys E uid → ∀ g, (firstOf E g).isSome →
    (sfsRealpath E.fs (argPath path arg)).isSome) :
    (((isName arg = false ∨ wantedType E (argPath path arg) = true ∧ HasKeys E uid) ∧
      ¬ Refused E uid D list path tree (argPath path arg)) ↔ Keeps E uid D path arg) ↔
    Clean E uid D list path tree arg := by
  cases hname : isName arg with
  | false =>
    have hkeeps : Keeps E uid D path arg := .inl hname
    rw [iff_true_right hkeeps, and_iff_right (.inl rfl)]
    exact ⟨clean_of_entry hname, fun h => h.entry hname⟩
  | true =>
    rw [or_iff_right Bool.noConfusion]
    have hentry : isName arg ≠ false := by simp [hname]
    by_cases hwanted : Wanted E path arg
    · by_cases hkeys : HasKeys E uid
      · rw [and_iff_right ⟨hwanted.2, hkeys⟩]
        exact clean_iff_wanted harg hwanted hkeys (hrealpath hwanted hkeys)
      · have hkeeps : ¬ Keeps E uid D path arg := by
          rw [Keeps, or_iff_right hentry]
          rintro ⟨-, h⟩
          exact hkeys fun f hf => by
            obtain ⟨-, -, q, hq, -⟩ := h f hf
            rw [hq]
            rfl
        refine iff_of_true (iff_of_false (fun h => hkeys h.1.2) hkeeps) ⟨fun h => absurd h hentry,
          fun _ h => absurd h hkeys, fun _ h => absurd h hkeys⟩
    · have htype : wantedType E (argPath path arg) ≠ true := fun h => hwanted ⟨hname, h⟩
      refine iff_of_true (iff_of_false (fun h => htype h.1.1) fun h => htype (h.resolve_left hentry).1) ⟨fun h =>
        absurd h hentry, fun h => absurd h hwanted, fun h => absurd h hwanted⟩

/-- A list is filtered as it should be if and only if the requests do for each entry what the filters say. -/
theorem leaves_keeps_iff (hown : Own E uid tree) (hret : (filterFileList E uid D list path tree).ret = 0) :
    Leaves (Keeps E uid D path) list (filterFileList E uid D list path tree).list ↔
      ∀ arg ∈ list, Clean E uid D list path tree arg := by
  obtain ⟨hleaves, hrealpath⟩ := filterFileList_leaves hown hret
  rw [hleaves.iff]
  exact forall₂_congr fun arg harg => clean_iff harg (hrealpath arg harg)

end Anoubis.Sfssig

import Anoubis.Sfssig.Filter

/-! What is in the requests of a list of names.

    A name is added to the request of each group with a selected filter. All nodes have the callback of the first
    one: the others of the group find the node, and its callback stays as it is.

        hassig, upgraded     filter_sig /p/a hassig      node getsig2 …, hassig     │ /p/a │
                             filter_sig /p/a upgraded                               │ /p/a │ /p/a │        -/

namespace Anoubis.Sfssig

open List

open Anoubis.Client (Request Record csmultiCreate csmultiAdd)
open Anoubis.Connection (Bytes)
open Anoubis.MsgVerify (opGet2 opGetsig2)

variable (E : Env) (uid : ℕ)

/-- The operation of a group. -/
def Group.op : Group → ℕ
  | .sum => opGet2
  | .sig => opGetsig2

/-- The request of a group; there is none without a key. -/
def groupQuery : Group → Option Query
  | .sum => some ⟨opGet2, uid, none⟩
  | .sig => E.as.map fun keyid => ⟨opGetsig2, 0, some keyid⟩

/-- The first selected filter of a group. -/
def firstOf (g : Group) : Option Filter := g.filters.find? E.opts.selected

/-- The paths in a request. -/
def Node.paths (node : Node) : List Bytes := node.req.reqs.map Record.path

/-- Some node asks this for a path. -/
def Asks (tree : FilterTree) (q : Query) (p : Bytes) : Prop := ∃ node ∈ tree, query node.req = q ∧ p ∈ node.paths

/-- A node of a group. -/
structure Belongs (g : Group) (node : Node) : Prop where
  asks : groupQuery E uid g = some (query node.req)
  callback : firstOf E g = some node.callback
  key : node.key = requestKey (query node.req)
  keyid : node.req.keyid ≠ some []

/-- All nodes belong to their groups. -/
def Own (tree : FilterTree) : Prop := ∀ node ∈ tree, ∃ g, Belongs E uid g node

variable {E uid} {tree tree' : FilterTree} {q q' : Query} {p p' altpath : Bytes} {g g' : Group} {f c : Filter}
  {node : Node} {ret : ℤ}

/-! ### Nodes -/

theorem groupQuery_op (h : groupQuery E uid g = some q) : q.op = g.op := by
  cases g with
  | sum =>
    rw [← Option.some.inj h]
    rfl
  | sig =>
    obtain ⟨keyid, -, rfl⟩ := Option.map_eq_some_iff.mp h
    rfl

/-- The operation tells the group, so nodes with one key have one query. -/
theorem groupQuery_unique (h : groupQuery E uid g = some q) (h' : groupQuery E uid g' = some q')
    (hop : q.op = q'.op) : g = g' ∧ q = q' := by
  have hne : opGet2 ≠ opGetsig2 := by decide
  rw [groupQuery_op h, groupQuery_op h'] at hop
  have hg : g = g' := by
    cases g with
    | sum => cases g' with
      | sum => rfl
      | sig => exact absurd hop hne
    | sig => cases g' with
      | sum => exact absurd hop.symm hne
      | sig => rfl
  exact ⟨hg, by simpa [hg, h'] using h.symm⟩

theorem isAdd_groupQuery (h : groupQuery E uid g = some q) : Client.isAdd q.op = false := by
  rw [groupQuery_op h]
  cases g with
  | sum => rfl
  | sig => rfl

theorem Belongs.of_key (h : Belongs E uid g' node) (hq : groupQuery E uid g = some q)
    (hkey : node.key = requestKey q) : query node.req = q := by
  have hop : (query node.req).op = q.op := by
    rw [h.key] at hkey
    exact congrArg Key.op hkey
  exact (groupQuery_unique h.asks hq hop).2

/-- A record is added to a request that reads. -/
theorem csmultiAdd_get {req : Request} (h : Client.isAdd req.op = false) : ∃ req',
    csmultiAdd req p none = (0, req') ∧ query req' = query req ∧
      req'.reqs.map Record.path = req.reqs.map Record.path ++ [p] := by
  rw [csmultiAdd, Client.badData, h]
  exact ⟨_, rfl, rfl, by simp⟩

theorem addRecord_spec (hown : Own E uid tree) (hq : groupQuery E uid g = some q)
    (hnode : ∃ node ∈ tree, node.key = requestKey q) :
    ∃ tree', addRecord (requestKey q) p tree = (0, tree') ∧ Own E uid tree' ∧
      (∃ node ∈ tree', node.key = requestKey q) ∧
      ∀ q' p', Asks tree' q' p' ↔ Asks tree q' p' ∨ (q' = q ∧ p' = p) := by
  induction tree with
  | nil =>
    obtain ⟨_, hmem, -⟩ := hnode
    cases hmem
  | cons node tree ih =>
    obtain ⟨gn, hbelongs⟩ := hown node mem_cons_self
    have hrest : Own E uid tree := fun n hn => hown n (mem_cons_of_mem _ hn)
    rw [addRecord]
    split
    · rename_i hkey
      have hquery := hbelongs.of_key hq hkey
      have hadd : Client.isAdd node.req.op = false := by
        have hop : node.req.op = q.op := congrArg Query.op hquery
        rw [hop]
        exact isAdd_groupQuery hq
      obtain ⟨req', heq, hquery', hpaths⟩ := csmultiAdd_get (p := p) hadd
      rw [heq]
      refine ⟨_, rfl, ?_, ⟨_, mem_cons_self, hkey⟩, fun q' p' => ?_⟩
      · intro n hn
        rcases mem_cons.mp hn with rfl | hn
        · have hkeyid : req'.keyid = node.req.keyid := congrArg Query.keyid hquery'
          refine ⟨gn, ?_, hbelongs.callback, ?_, ?_⟩
          · rw [hquery']
            exact hbelongs.asks
          · rw [hquery']
            exact hbelongs.key
          · rw [hkeyid]
            exact hbelongs.keyid
        · exact hrest n hn
      · simp only [Asks, exists_mem_cons_iff, Node.paths, hquery', hquery, hpaths, mem_append, mem_singleton]
        constructor
        · rintro (⟨rfl, hp | hp⟩ | h)
          · exact .inl (.inl ⟨rfl, hp⟩)
          · exact .inr ⟨rfl, hp⟩
          · exact .inl (.inr h)
        · rintro ((⟨rfl, hp⟩ | h) | ⟨rfl, hp⟩)
          · exact .inl ⟨rfl, .inl hp⟩
          · exact .inr h
          · exact .inl ⟨rfl, .inr hp⟩
    · rename_i hkey
      have hnode' : ∃ n ∈ tree, n.key = requestKey q := by
        obtain ⟨n, hn, hnkey⟩ := hnode
        rcases mem_cons.mp hn with rfl | hn
        · exact absurd hnkey hkey
        · exact ⟨n, hn, hnkey⟩
      obtain ⟨tree', heq, hown', ⟨n, hn, hnkey⟩, hasks⟩ := ih hrest hnode'
      rw [heq]
      refine ⟨node :: tree', rfl, ?_, ⟨n, mem_cons_of_mem _ hn, hnkey⟩, fun q' p' => ?_⟩
      · intro n hn
        rcases mem_cons.mp hn with rfl | hn
        · exact ⟨gn, hbelongs⟩
        · exact hown' n hn
      · have hcons : ∀ t : FilterTree, Asks (node :: t) q' p' ↔ (query node.req = q' ∧ p' ∈ node.paths) ∨
            Asks t q' p' := fun t => exists_mem_cons_iff _ _ _
        rw [hcons, hcons, hasks, or_assoc]

/-! ### One filter -/

/-- A new node. -/
theorem insertNode_spec (hown : Own E uid tree) (hq : groupQuery E uid g = some q) (hc : firstOf E g = some c)
    (hkeyid : q.keyid ≠ some []) :
    ∃ tree', sfsInsertRequestNode tree q c = some tree' ∧ Own E uid tree' ∧
      (∃ node ∈ tree', node.key = requestKey q) ∧ ∀ q' p', Asks tree' q' p' ↔ Asks tree q' p' := by
  obtain ⟨req, hcreate, hquery, hreqs⟩ : ∃ req,
      csmultiCreate q.op q.uid (if q.keyid.getD [] = [] then none else q.keyid) = some req ∧ query req = q ∧
        req.reqs = [] := by
    cases g with
    | sum =>
      rw [← Option.some.inj hq]
      exact ⟨⟨opGet2, 0, 0, uid, none, [], false, none, []⟩, rfl, rfl, rfl⟩
    | sig =>
      obtain ⟨keyid, -, rfl⟩ := Option.map_eq_some_iff.mp hq
      have hne : keyid ≠ [] := fun h => hkeyid (congrArg some h)
      refine ⟨⟨opGetsig2, 0, 0, 0, some keyid, [], false, none, []⟩, ?_, rfl, rfl⟩
      simp [csmultiCreate, hne]
  refine ⟨_, by rw [sfsInsertRequestNode, hcreate]; rfl, fun n hn => ?_, ⟨_, (mem_orderedInsert _).mpr
    (.inl rfl), rfl⟩, fun q' p' => ?_⟩
  · rcases (mem_orderedInsert _).mp hn with rfl | hn
    · have hreqkeyid : req.keyid = q.keyid := congrArg Query.keyid hquery
      exact ⟨g, by rw [hquery, hq], hc, by rw [hquery], by rwa [hreqkeyid]⟩
    · exact hown n hn
  · constructor
    · rintro ⟨n, hn, hn', hp⟩
      rcases (mem_orderedInsert _).mp hn with rfl | hn
      · rw [Node.paths, hreqs] at hp
        cases hp
      · exact ⟨n, hn, hn', hp⟩
    · rintro ⟨n, hn, h⟩
      exact ⟨n, (mem_orderedInsert _).mpr (.inr hn), h⟩

/-- `filter_request_add`, where the path and the key are good. -/
theorem filterRequestAdd_spec (hown : Own E uid tree) (hq : groupQuery E uid g = some q)
    (hp : sfsRealpath E.fs altpath = some p) (hkeyid : q.keyid ≠ some [])
    (hfirst : (∃ node ∈ tree, node.key = requestKey q) ∨ firstOf E g = some f) :
    ∃ tree', filterRequestAdd E altpath q f tree = (1, tree') ∧ Own E uid tree' ∧
      (∃ node ∈ tree', node.key = requestKey q) ∧
      ∀ q' p', Asks tree' q' p' ↔ Asks tree q' p' ∨ (q' = q ∧ p' = p) := by
  have hop : ¬ (q.op ≠ opGetsig2 ∧ q.op ≠ opGet2) := by
    rw [groupQuery_op hq]
    cases g with
    | sum => exact fun h => h.2 rfl
    | sig => exact fun h => h.1 rfl
  rw [filterRequestAdd, hp]
  dsimp only
  rw [if_neg hop]
  obtain ⟨tree₁, hfound, hown₁, hnode₁, hasks₁⟩ : ∃ tree₁,
      (if (sfsFindRequest tree q).isSome then some tree else sfsInsertRequestNode tree q f) = some tree₁ ∧
        Own E uid tree₁ ∧ (∃ node ∈ tree₁, node.key = requestKey q) ∧
        ∀ q' p', Asks tree₁ q' p' ↔ Asks tree q' p' := by
    have hfind : (sfsFindRequest tree q).isSome ↔ ∃ node ∈ tree, node.key = requestKey q := by
      rw [sfsFindRequest, find?_isSome]
      simp only [decide_eq_true_eq]
    by_cases hnode : ∃ node ∈ tree, node.key = requestKey q
    · exact ⟨tree, if_pos (hfind.mpr hnode), hown, hnode, fun _ _ => .rfl⟩
    · rw [if_neg fun h => hnode (hfind.mp h)]
      exact insertNode_spec hown hq (hfirst.resolve_left hnode) hkeyid
  obtain ⟨tree₂, hadd, hown₂, hnode₂, hasks₂⟩ := addRecord_spec (p := p) hown₁ hq hnode₁
  rw [hfound]
  dsimp only
  rw [hadd]
  refine ⟨tree₂, rfl, hown₂, hnode₂, fun q' p' => ?_⟩
  rw [hasks₂, hasks₁]

/-- There is no request with an empty key. -/
theorem filterRequestAdd_emptyKey (hown : Own E uid tree) (hq : groupQuery E uid g = some q)
    (hp : sfsRealpath E.fs altpath = some p) (hkeyid : q.keyid = some []) :
    filterRequestAdd E altpath q f tree = (-(enomem : ℤ), tree) := by
  obtain ⟨op, uid', keyid⟩ := q
  obtain rfl : keyid = some [] := hkeyid
  cases g with
  | sum => cases hq
  | sig =>
    obtain ⟨keyid, -, heq⟩ := Option.map_eq_some_iff.mp hq
    obtain ⟨rfl, rfl, -⟩ := Query.mk.inj heq
    have hfind : sfsFindRequest tree ⟨opGetsig2, 0, some []⟩ = none := by
      rw [sfsFindRequest, find?_eq_none]
      intro node hnode hkey
      obtain ⟨gn, hbelongs⟩ := hown node hnode
      have hquery := hbelongs.of_key hq (of_decide_eq_true hkey)
      exact hbelongs.keyid (congrArg Query.keyid hquery)
    rw [filterRequestAdd, hp]
    dsimp only
    rw [if_neg fun h => h.1 rfl, hfind]
    rfl

theorem filterAdd_eq (hq : groupQuery E uid g = some q) (f : Filter) (tree : FilterTree) :
    filterAdd E uid g altpath f tree = filterRequestAdd E altpath q f tree := by
  cases g with
  | sum =>
    rw [← Option.some.inj hq]
    rfl
  | sig =>
    obtain ⟨keyid, has, rfl⟩ := Option.map_eq_some_iff.mp hq
    rw [filterAdd, filterSig, has]

theorem filterAdd_noKey (hq : groupQuery E uid g = none) (f : Filter) (tree : FilterTree) :
    filterAdd E uid g altpath f tree = (0, tree) := by
  cases g with
  | sum => cases hq
  | sig =>
    rw [filterAdd, filterSig, Option.map_eq_none_iff.mp hq]

/-! ### The filters of a group -/

/-- What the filters of a group do with a file: none is selected; there is no key; the path or the key is bad; or the
    path is in the request. -/
inductive GroupRun (E : Env) (uid : ℕ) (g : Group) (altpath : Bytes) (r : ℤ × FilterTree) : ℤ × FilterTree → Prop
  | idle (hnone : firstOf E g = none) : GroupRun E uid g altpath r r
  | noKey (hsome : (firstOf E g).isSome) (hq : groupQuery E uid g = none) : GroupRun E uid g altpath r (0, r.2)
  | failed (e : ℤ) (hsome : (firstOf E g).isSome) (he : e < 0) (hq : (groupQuery E uid g).isSome)
      (hbad : sfsRealpath E.fs altpath = none ∨ ∃ q, groupQuery E uid g = some q ∧ q.keyid = some []) :
      GroupRun E uid g altpath r (e, r.2)
  | added (q : Query) (p : Bytes) (tree : FilterTree) (hsome : (firstOf E g).isSome)
      (hq : groupQuery E uid g = some q) (hp : sfsRealpath E.fs altpath = some p) (hown : Own E uid tree)
      (hasks : ∀ q' p', Asks tree q' p' ↔ Asks r.2 q' p' ∨ (q' = q ∧ p' = p)) :
      GroupRun E uid g altpath r (1, tree)

theorem addSelected_cons (f : Filter) (filters : List Filter) (r : ℤ × FilterTree) :
    addSelected E uid g altpath (f :: filters) r = addSelected E uid g altpath filters
        (if E.opts.selected f ∧ r.1 ≠ 0 then filterAdd E uid g altpath f r.2 else r) := rfl

variable {filters : List Filter}

theorem addSelected_none {r : ℤ × FilterTree} (h : filters.find? E.opts.selected = none) :
    addSelected E uid g altpath filters r = r := by
  induction filters with
  | nil => rfl
  | cons f filters ih =>
    have hnone := find?_eq_none.mp h
    rw [addSelected_cons, if_neg fun hcond => hnone f mem_cons_self hcond.1]
    exact ih (find?_eq_none.mpr fun f' hf' => hnone f' (mem_cons_of_mem _ hf'))

theorem addSelected_zero : addSelected E uid g altpath filters (0, tree) = (0, tree) := by
  induction filters with
  | nil => rfl
  | cons f filters ih =>
    rw [addSelected_cons, if_neg fun hcond => hcond.2 rfl]
    exact ih

/-- All filters give the same result and leave the tree as it is. -/
theorem addSelected_const {e : ℤ} (h : ∀ f, filterAdd E uid g altpath f tree = (e, tree)) (hret : ret ≠ 0)
    (hsome : (filters.find? E.opts.selected).isSome) :
    addSelected E uid g altpath filters (ret, tree) = (e, tree) := by
  induction filters generalizing ret with
  | nil => cases hsome
  | cons f filters ih =>
    rw [find?_cons] at hsome
    rw [addSelected_cons]
    cases hf : E.opts.selected f with
    | false =>
      rw [hf] at hsome
      rw [if_neg fun hcond => Bool.false_ne_true hcond.1]
      exact ih hret hsome
    | true =>
      rw [if_pos ⟨rfl, hret⟩, h]
      by_cases he : e = 0
      · rw [he]
        exact addSelected_zero
      · by_cases hmore : (filters.find? E.opts.selected).isSome
        · exact ih he hmore
        · exact addSelected_none (Option.not_isSome_iff_eq_none.mp hmore)

/-- The node of the first filter is there for the others. -/
theorem addSelected_added (hq : groupQuery E uid g = some q) (hp : sfsRealpath E.fs altpath = some p)
    (hkeyid : q.keyid ≠ some []) (hown : Own E uid tree)
    (hfirst : (∃ node ∈ tree, node.key = requestKey q) ∨ filters.find? E.opts.selected = firstOf E g)
    (hret : ret ≠ 0) (hsome : (filters.find? E.opts.selected).isSome) :
    ∃ tree', addSelected E uid g altpath filters (ret, tree) = (1, tree') ∧ Own E uid tree' ∧
      ∀ q' p', Asks tree' q' p' ↔ Asks tree q' p' ∨ (q' = q ∧ p' = p) := by
  induction filters generalizing ret tree with
  | nil => cases hsome
  | cons f filters ih =>
    rw [find?_cons] at hfirst hsome
    rw [addSelected_cons]
    cases hf : E.opts.selected f with
    | false =>
      rw [hf] at hfirst hsome
      rw [if_neg fun hcond => Bool.false_ne_true hcond.1]
      exact ih hown hfirst hret hsome
    | true =>
      rw [hf] at hfirst
      obtain ⟨tree₁, hadd, hown₁, hnode₁, hasks₁⟩ := filterRequestAdd_spec (f := f) hown hq hp hkeyid
        (hfirst.imp_right Eq.symm)
      rw [if_pos ⟨rfl, hret⟩, filterAdd_eq hq, hadd]
      by_cases hmore : (filters.find? E.opts.selected).isSome
      · obtain ⟨tree₂, hrun, hown₂, hasks₂⟩ := ih hown₁ (.inl hnode₁) Int.one_ne_zero hmore
        refine ⟨tree₂, hrun, hown₂, fun q' p' => ?_⟩
        rw [hasks₂, hasks₁, or_assoc, or_self]
      · exact ⟨tree₁, addSelected_none (Option.not_isSome_iff_eq_none.mp hmore), hown₁, hasks₁⟩

theorem groupRun (hown : Own E uid tree) (hret : ret ≠ 0) :
    GroupRun E uid g altpath (ret, tree) (addSelected E uid g altpath g.filters (ret, tree)) := by
  by_cases hsome : (firstOf E g).isSome
  · cases hq : groupQuery E uid g with
    | none =>
      rw [addSelected_const (fun f => filterAdd_noKey hq f tree) hret hsome]
      exact .noKey hsome hq
    | some q =>
      have hissome : (groupQuery E uid g).isSome := by rw [hq]; rfl
      cases hp : sfsRealpath E.fs altpath with
      | none =>
        have hbad : ∀ f, filterAdd E uid g altpath f tree = (-(einval : ℤ), tree) := fun f => by
          rw [filterAdd_eq hq, filterRequestAdd, hp]
        rw [addSelected_const hbad hret hsome]
        exact .failed _ hsome (by decide) hissome (.inl hp)
      | some p =>
        by_cases hkeyid : q.keyid = some []
        · have hbad : ∀ f, filterAdd E uid g altpath f tree = (-(enomem : ℤ), tree) := fun f => by
            rw [filterAdd_eq hq]
            exact filterRequestAdd_emptyKey hown hq hp hkeyid
          rw [addSelected_const hbad hret hsome]
          exact .failed _ hsome (by decide) hissome (.inr ⟨q, hq, hkeyid⟩)
        · obtain ⟨tree', hrun, hown', hasks⟩ := addSelected_added hq hp hkeyid hown (.inr rfl) hret hsome
          rw [hrun]
          exact .added q p tree' hsome hq hp hown' hasks
  · have hnone := Option.not_isSome_iff_eq_none.mp hsome
    rw [addSelected_none hnone]
    exact .idle hnone

end Anoubis.Sfssig

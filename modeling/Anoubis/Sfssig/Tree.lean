import Anoubis.Sfssig.FilterNames

/-! Operations on trees of files (`sfs_tree` in `main.c` of sfssig).

    The names of a directory are filtered, and then the operation is applied to the files among those that are left.
    The directories among them are entered. The loop ends at the first hole, and not only at an operation that fails:

        list       a    d/   b    c
        left       a    d/   –    c
        applied    a  (d)                  c is left, and nothing is applied to it -/

namespace Anoubis.Sfssig

open Anoubis.Lib
open Anoubis.Connection (Bytes)

/-- The operations of which `sfs_tree` applies one: `sfs_del`, `sfs_get` and `sfs_validate`. -/
inductive TreeOp where
  | del
  | get
  | validate
  deriving DecidableEq

/-- Where names come from: a list of the daemon for all users and keys, for a key or for a uid, or readdir. -/
inductive ListOf where
  | all
  | key (keyid : Option Bytes)
  | sum (uid : ℕ)
  | directory
  deriving DecidableEq

/-- The names in a list. Neither readdir nor the daemon gives an empty name. -/
abbrev Names := { names : List Bytes // ∀ arg ∈ names, arg ≠ [] }

/-- A directory: it cannot be listed, or it has names, where they can be read, and the directories in it by their
    paths. There is no way from a directory to itself. -/
inductive Dirs (W : Type) where
  | unlisted
  | mk (list : ListOf → W → Option Names) (sub : Bytes → Dirs W)

/-- What is outside of the tool: the answers of the daemon, and what the operations do. -/
structure System (W : Type) where
  daemon : W → Daemon
  apply : TreeOp → ℕ → Bytes → W → ℤ × W

/-- The filter tree and the world. -/
structure State (W : Type) where
  tree : FilterTree
  world : W

/-- The result of `sfs_tree`, its own operations with their results, and the state behind the call. -/
structure Out (W : Type) where
  ret : ℤ
  applied : List (Bytes × ℤ)
  state : State W

variable {W : Type} (E : Env) (S : System W) (op : TreeOp) (uid : ℕ)

/-- Where `sfs_tree` has its names from. -/
def listOf : ListOf :=
  if op = .del ∨ E.opts.filter = false ∨ E.opts.notfile ∨ E.opts.orph ∨ E.opts.hassig ∨ E.opts.hassum then
    if E.opts.sig then if E.opts.allcert then .all else .key E.as
    else if E.opts.alluid then .all
    else .sum uid
  else .directory

/-- The list that `sfs_tree` makes of the names. -/
def nameList (q : ListOf) (names : Names) : List Bytes :=
  if q = .directory then names.1.filter fun arg => arg ≠ [dot] ∧ arg ≠ [dot, dot] else names.1

/-- The list behind the filter. -/
def filtered (path : Bytes) (list : List Bytes) (st : State W) : ListOut :=
  if E.opts.filter then filterFileList E uid (S.daemon st.world) list (some path) st.tree
  else ⟨0, list.map some, st.tree⟩

/-- An entry that is entered. -/
def isDirectory (path arg : Bytes) : Bool :=
  decide (E.fs.lstat (buildPath path arg) = some .dir ∨ arg.getLast? = some slash)

/-- The loop of `sfs_tree`; `sub` is the call for a directory. -/
def treeLoop (path : Bytes) (sub : Bytes → State W → State W) : List (Option Bytes) → State W → Out W
  | [], st => ⟨0, [], st⟩
  | none :: _, st => ⟨1, [], st⟩
  | some arg :: list, st =>
    let tmp := buildPath path arg
    if isDirectory E path arg then treeLoop path sub list (sub tmp st)
    else
      let (ret, world) := S.apply op uid tmp st.world
      let st := { st with world := world }
      if ret ≠ 0 then ⟨ret, [(tmp, ret)], st⟩
      else
        let out := treeLoop path sub list st
        { out with applied := (tmp, ret) :: out.applied }

/-- The path without a slash at its end. -/
def trimSlash (path : Bytes) : Bytes := if 2 < path.length ∧ path.getLast? = some slash then path.dropLast else path

/-- `sfs_tree`. -/
def sfsTree : Dirs W → Bytes → State W → Out W
  | .unlisted, _, st => ⟨1, [], st⟩
  | .mk list sub, path, st =>
    if path = [] then ⟨1, [], st⟩
    else
      let path := trimSlash path
      match list (listOf E op uid) st.world with
      | none => ⟨1, [], st⟩
      | some names =>
        let out := filtered E S uid path (nameList (listOf E op uid) names) st
        treeLoop E S op uid path (fun tmp st => (sfsTree (sub tmp) tmp st).state) out.list
          { st with tree := out.tree }

/-! ### The condition -/

/-- The paths of the files in a list with holes. -/
def files (path : Bytes) (entries : List (Option Bytes)) : List Bytes :=
  entries.filterMap fun entry => entry.bind fun arg =>
    if isDirectory E path arg then none else some (buildPath path arg)

/-- An operation in front of the first hole fails. -/
def Fails (path : Bytes) (sub : Bytes → State W → State W) : List (Option Bytes) → State W → Prop
  | [], _ => False
  | none :: _, _ => False
  | some arg :: list, st =>
    let tmp := buildPath path arg
    if isDirectory E path arg then Fails path sub list (sub tmp st)
    else
      let (ret, world) := S.apply op uid tmp st.world
      ret ≠ 0 ∨ Fails path sub list { st with world := world }

/-- The list from its first hole on. -/
def fromHole (entries : List (Option Bytes)) : List (Option Bytes) := entries.dropWhile Option.isSome

/-- The trees that earlier calls of `filter_file_list` may have left. -/
inductive Earlier : FilterTree → Prop
  | start : Earlier []
  | call {tree : FilterTree} (D : Daemon) (list : List Bytes) (path : Option Bytes) (h : Earlier tree) :
      Earlier (filterFileList E uid D list path tree).tree

variable {E S op uid} {tree : FilterTree} {path : Bytes} {sub : Bytes → State W → State W}
  {entries : List (Option Bytes)} {st : State W}

theorem own_earlier (h : Earlier E uid tree) : Own E uid tree := by
  induction h with
  | start => exact fun node hnode => absurd hnode List.not_mem_nil
  | call D list path _ ih => exact own_filterFileList ih

/-! ### Calls of `sfs_tree` -/

theorem earlier_treeLoop (hsub : ∀ tmp st, Earlier E uid st.tree → Earlier E uid (sub tmp st).tree)
    (h : Earlier E uid st.tree) : Earlier E uid (treeLoop E S op uid path sub entries st).state.tree := by
  induction entries generalizing st with
  | nil => exact h
  | cons entry entries ih =>
    cases entry with
    | none => exact h
    | some arg =>
      rw [treeLoop]
      dsimp only
      split
      · exact ih (hsub _ _ h)
      · split
        · exact h
        · exact ih h

/-- In all calls of a run the filter tree is one that earlier calls have left. -/
theorem earlier_sfsTree {dirs : Dirs W} (h : Earlier E uid st.tree) :
    Earlier E uid (sfsTree E S op uid dirs path st).state.tree := by
  induction dirs generalizing path st with
  | unlisted => exact h
  | mk list sub ih =>
    rw [sfsTree]
    split
    · exact h
    · dsimp only
      split
      · exact h
      · refine earlier_treeLoop (fun tmp st h => ih tmp h) ?_
        dsimp only
        rw [filtered]
        split
        · exact .call _ _ _ h
        · exact h

/-- The loop over a list with holes. -/
theorem treeLoop_iff : UpToFailure (files E path entries) (treeLoop E S op uid path sub entries st).applied ↔
    Fails E S op uid path sub entries st ∨ files E path (fromHole entries) = [] := by
  induction entries generalizing st with
  | nil => exact iff_of_true .done (.inr rfl)
  | cons entry entries ih =>
    cases entry with
    | none =>
      rw [treeLoop, Fails, false_or]
      exact upToFailure_nil
    | some arg =>
      have hfiles : files E path (some arg :: entries) =
          if isDirectory E path arg then files E path entries else buildPath path arg :: files E path entries := by
        rw [files, List.filterMap_cons, Option.bind_some]
        cases isDirectory E path arg <;> rfl
      have hhole : fromHole (some arg :: entries) = fromHole entries := rfl
      rw [treeLoop, Fails, hfiles, hhole]
      dsimp only
      cases hdir : isDirectory E path arg with
      | true =>
        rw [if_pos rfl, if_pos rfl, if_pos rfl]
        exact ih
      | false =>
        rw [if_neg Bool.false_ne_true, if_neg Bool.false_ne_true, if_neg Bool.false_ne_true]
        by_cases hret : (S.apply op uid (buildPath path arg) st.world).1 = 0
        · rw [if_neg (not_not.mpr hret), hret]
          dsimp only
          rw [upToFailure_cons, ih, or_iff_right (not_not.mpr rfl)]
        · rw [if_pos hret]
          exact iff_of_true (.failed _ _ _ hret) (.inl (.inl hret))

variable {list : ListOf → W → Option Names} {dirs : Bytes → Dirs W} {names : Names}

/-- A call of `sfs_tree` is its loop. -/
theorem sfsTree_eq (hpath : path ≠ []) (hlist : list (listOf E op uid) st.world = some names) :
    sfsTree E S op uid (.mk list dirs) path st =
      treeLoop E S op uid (trimSlash path) (fun tmp st => (sfsTree E S op uid (dirs tmp) tmp st).state)
        (filtered E S uid (trimSlash path) (nameList (listOf E op uid) names) st).list
        { st with tree := (filtered E S uid (trimSlash path) (nameList (listOf E op uid) names) st).tree } := by
  rw [sfsTree, if_neg hpath]
  dsimp only
  rw [hlist]

/-- A list of names is filtered as it should be if and only if the requests do for each entry what the filters say;
    and `sfs_tree` applies its operation to the files that are left, up to the first failure, if and only if there is
    no file behind the first hole, or an operation in front of it fails. -/
theorem filter_file_list_sfs_tree_iff (E : Env) (S : System W) (op : TreeOp) (uid : ℕ) :
    (∀ D list path tree, Earlier E uid tree → (filterFileList E uid D list path tree).ret = 0 →
      (Leaves (Keeps E uid D path) list (filterFileList E uid D list path tree).list ↔
        ∀ arg ∈ list, Clean E uid D list path tree arg)) ∧
    ∀ list dirs path names, ∀ st : State W, path ≠ [] → list (listOf E op uid) st.world = some names →
      ∀ out, out = filtered E S uid (trimSlash path) (nameList (listOf E op uid) names) st → out.ret = 0 →
        (UpToFailure (files E (trimSlash path) out.list) (sfsTree E S op uid (.mk list dirs) path st).applied ↔
          Fails E S op uid (trimSlash path) (fun tmp st => (sfsTree E S op uid (dirs tmp) tmp st).state) out.list
            { st with tree := out.tree } ∨ files E (trimSlash path) (fromHole out.list) = []) := by
  refine ⟨fun D list path tree htree hret => leaves_keeps_iff (own_earlier htree) hret, ?_⟩
  rintro list dirs path names st hpath hlist out rfl -
  rw [sfsTree_eq hpath hlist]
  exact treeLoop_iff

def noOpts : Opts := ⟨false, false, false, false, false, false, false, false, false, false⟩

/-- The file /p/a; there is no /p/b. -/
def sampleEnv (opts : Opts) : Env :=
  ⟨opts, ⟨fun p => if p = [47, 112, 47, 97] then some .reg else none, none⟩, some [10]⟩

/-- There are checksums and signatures, and no upgrades. -/
def sampleDaemon : Daemon := ⟨fun _ => true, fun _ _ => ⟨0, some 32, some 288, none⟩⟩

def sampleSystem : System Unit := ⟨fun _ => sampleDaemon, fun _ _ _ world => (0, world)⟩

def sampleNames : Names := ⟨[[97], [98]], by decide⟩

/-- The options --orphaned, and --sig with --hassig and --upgraded. -/
def orphOpts : Opts := { noOpts with orph := true }
def upgradedOpts : Opts := { noOpts with sig := true, hassig := true, upgraded := true }

/-- The orphaned names. -/
def orphList : ListOut := filtered (sampleEnv orphOpts) sampleSystem 7 [47, 112] sampleNames.1 ⟨[], ()⟩

/-- The signed files with an upgrade. -/
def upgradedList : ListOut := filterFileList (sampleEnv upgradedOpts) 7 sampleDaemon [[97]] (some [47, 112]) []

/-- The orphaned checksums below /p are deleted. -/
def orphTree : Out Unit :=
  sfsTree (sampleEnv orphOpts) sampleSystem .del 7 (.mk (fun _ _ => some sampleNames) fun _ => .unlisted) [47, 112]
    ⟨[], ()⟩

theorem filter_file_list_sfs_tree_sample :
    (Leaves (Keeps (sampleEnv upgradedOpts) 7 sampleDaemon (some [47, 112])) [[97]] upgradedList.list ↔
      ∀ arg ∈ [[97]], Clean (sampleEnv upgradedOpts) 7 sampleDaemon [[97]] (some [47, 112]) [] arg) ∧
    (UpToFailure (files (sampleEnv orphOpts) [47, 112] orphList.list) orphTree.applied ↔
      Fails (sampleEnv orphOpts) sampleSystem .del 7 [47, 112]
        (fun tmp st => (sfsTree (sampleEnv orphOpts) sampleSystem .del 7 .unlisted tmp st).state) orphList.list
        ⟨orphList.tree, ()⟩ ∨ files (sampleEnv orphOpts) [47, 112] (fromHole orphList.list) = []) :=
  ⟨(filter_file_list_sfs_tree_iff (sampleEnv upgradedOpts) sampleSystem .del 7).1 sampleDaemon [[97]] (some [47, 112])
      [] .start (by decide +kernel),
    (filter_file_list_sfs_tree_iff (sampleEnv orphOpts) sampleSystem .del 7).2 (fun _ _ => some sampleNames)
      (fun _ => .unlisted) [47, 112] sampleNames ⟨[], ()⟩ (by decide) rfl orphList rfl (by decide +kernel)⟩

/-- /p/b is left by --orphaned, and its checksum is not deleted; and /p/a is left by --upgraded without an upgrade. -/
theorem filter_file_list_sfs_tree_wrong :
    (orphList.ret = 0 ∧ ¬ UpToFailure (files (sampleEnv orphOpts) [47, 112] orphList.list) orphTree.applied) ∧
    upgradedList.ret = 0 ∧
      ¬ Leaves (Keeps (sampleEnv upgradedOpts) 7 sampleDaemon (some [47, 112])) [[97]] upgradedList.list := by
  have hfiles : files (sampleEnv orphOpts) [47, 112] orphList.list = [[47, 112, 47, 98]] := by decide +kernel
  have happlied : orphTree.applied = [] := by decide +kernel
  have hlist : upgradedList.list = [some [97]] := by decide +kernel
  refine ⟨⟨by decide +kernel, fun h => ?_⟩, by decide +kernel, fun h => ?_⟩
  · rw [hfiles, happlied, upToFailure_nil] at h
    cases h
  · rw [hlist, Leaves, List.forall₂_cons] at h
    obtain ⟨⟨-, hname | ⟨-, haccepts⟩⟩ | ⟨hnone, -⟩, -⟩ := h
    · exact absurd hname (by decide)
    · obtain ⟨p, -, q, -, haccept⟩ := haccepts .upgraded rfl
      exact absurd haccept Bool.false_ne_true
    · cases hnone

end Anoubis.Sfssig

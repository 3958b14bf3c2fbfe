import Anoubis.Client.Csmulti
import Anoubis.Csum.Export
import Anoubis.Sfssig.Path
import Mathlib.Data.List.Sort

/-! Filters on lists of file names (`filter.c`, `utils.c` and `main.c` of sfssig).

    Names of the wrong type are removed at once. The others are added to the requests of the selected filters, one
    for each operation with its uid or key. Then the requests are sent, and a name is removed where the callback of
    a request does not accept the answer for its path:

        list             a    d/   b    c
        filter_a_file    a    d/   –    c         request  get2, uid 7, hassum   │ /p/a │ /p/c │
        filter_result    a    d/   –    –         answer                           cs     ENOENT

    What is removed leaves a hole. The daemon is a parameter. -/

namespace Anoubis.Sfssig

open Anoubis.Client (Request csmultiCreate csmultiAdd)
open Anoubis.Connection (Bytes)
open Anoubis.Csum (anoubisPrintSignature digitBytes)
open Anoubis.MsgVerify (opGet2 opGetsig2)

/-! ### Options and callbacks -/

/-- The options that say which files are wanted, and for whom. -/
structure Opts where
  sig : Bool
  hassum : Bool
  nosum : Bool
  hassig : Bool
  nosig : Bool
  orph : Bool
  notfile : Bool
  upgraded : Bool
  alluid : Bool
  allcert : Bool
  deriving DecidableEq

/-- SFSSIG_OPT_FILTER. -/
def Opts.filter (opts : Opts) : Bool :=
  opts.hassum || opts.nosum || opts.hassig || opts.nosig || opts.orph || opts.notfile || opts.upgraded

/-- An answered record: the error, and the lengths of the entries that are there. -/
structure Reply where
  error : ℕ
  csum : Option ℕ
  sig : Option ℕ
  upgrade : Option ℕ
  deriving DecidableEq

/-- There is such an entry. -/
def hasEntry (entry : Option ℕ) (record : Reply) : Bool :=
  decide (record.error = 0) && entry.elim false fun cslen => decide (0 < cslen)

/-- There is no such entry. -/
def hasNoEntry (entry : Option ℕ) (record : Reply) : Bool :=
  decide (record.error = enoent) || (decide (record.error = 0) && entry.isNone)

def filterHassumCallback (record : Reply) : Bool := hasEntry record.csum record
def filterHasnosumCallback (record : Reply) : Bool := hasNoEntry record.csum record
def filterHassigCallback (record : Reply) : Bool := hasEntry record.sig record
def filterHasnosigCallback (record : Reply) : Bool := hasNoEntry record.sig record
def filterUpgradedCallback (record : Reply) : Bool := hasEntry record.upgrade record

/-- The filters that ask the daemon. -/
inductive Filter where
  | hassum
  | nosum
  | hassig
  | nosig
  | upgraded
  deriving DecidableEq

def Filter.callback : Filter → Reply → Bool
  | .hassum => filterHassumCallback
  | .nosum => filterHasnosumCallback
  | .hassig => filterHassigCallback
  | .nosig => filterHasnosigCallback
  | .upgraded => filterUpgradedCallback

def Opts.selected (opts : Opts) : Filter → Bool
  | .hassum => opts.hassum
  | .nosum => opts.nosum
  | .hassig => opts.hassig
  | .nosig => opts.nosig
  | .upgraded => opts.upgraded

/-- Filters on checksums and filters on signatures. -/
inductive Group where
  | sum
  | sig
  deriving DecidableEq

/-- The filters of a group, in the order of `filter_a_file`. -/
def Group.filters : Group → List Filter
  | .sum => [.hassum, .nosum]
  | .sig => [.hassig, .nosig, .upgraded]

/-! ### The tree of requests -/

/-- What a request asks for. -/
structure Query where
  op : ℕ
  uid : ℕ
  keyid : Option Bytes
  deriving DecidableEq

def query (req : Request) : Query := ⟨req.op, req.uid, req.keyid⟩

/-- The fields by which `hashcmp` orders the nodes. -/
structure Key where
  idx : ℕ
  op : ℕ
  key : Bytes
  deriving DecidableEq

/-- `hash_fn`. -/
def hashFn (data : Bytes) : ℕ :=
  data.foldl (fun ret c =>
    let ret := (2 * ret) ^^^ c.toNat
    (ret ^^^ ret / 2 ^ 24) % 2 ^ 24) 0

/-- `idx`, `op` and `key` of the node for a request. -/
def requestKey (q : Query) : Key :=
  let keyid := q.keyid.getD []
  let key := if keyid = [] then digitBytes (Nat.toDigits 10 q.uid) else anoubisPrintSignature keyid
  ⟨hashFn key, q.op, key⟩

/-- `hashcmp` is negative. -/
def hashcmpNeg (a b : Key) : Bool :=
  decide (a.idx < b.idx ∨ a.idx = b.idx ∧ (a.op < b.op ∨ a.op = b.op ∧ a.key < b.key))

/-- struct sfs_request_node of a filter request. -/
structure Node where
  key : Key
  callback : Filter
  req : Request

/-- The tree, as the list of its nodes in their order. -/
abbrev FilterTree := List Node

/-- `sfs_find_request`. -/
def sfsFindRequest (tree : FilterTree) (q : Query) : Option Node := tree.find? fun node => node.key = requestKey q

/-- `sfs_insert_request_node`, for a request that is not in the tree. -/
def sfsInsertRequestNode (tree : FilterTree) (q : Query) (callback : Filter) : Option FilterTree :=
  let keyid := if q.keyid.getD [] = [] then none else q.keyid
  (csmultiCreate q.op q.uid keyid).map fun req =>
    tree.orderedInsert (fun a b => hashcmpNeg a.key b.key) ⟨requestKey q, callback, req⟩

/-- `anoubis_csmulti_add` for the request of the node with this key. -/
def addRecord (key : Key) (path : Bytes) : FilterTree → ℤ × FilterTree
  | [] => (0, [])
  | node :: tree =>
    if node.key = key then
      let (error, req) := csmultiAdd node.req path none
      (error, { node with req := req } :: tree)
    else
      let (error, tree) := addRecord key path tree
      (error, node :: tree)

/-! ### Requests for a name -/

/-- The globals of the program: its options, the file system, and the key ID of the certificate, if it has one. -/
structure Env where
  opts : Opts
  fs : Fs
  as : Option Bytes

variable (E : Env) (uid : ℕ)

/-- `filter_request_add`. -/
def filterRequestAdd (arg : Bytes) (q : Query) (callback : Filter) (tree : FilterTree) : ℤ × FilterTree :=
  match sfsRealpath E.fs arg with
  | none => (-einval, tree)
  | some tmp =>
    if q.op ≠ opGetsig2 ∧ q.op ≠ opGet2 then (-einval, tree)
    else
      let found := if (sfsFindRequest tree q).isSome then some tree else sfsInsertRequestNode tree q callback
      match found with
      | none => (-enomem, tree)
      | some tree =>
        let (error, tree) := addRecord (requestKey q) tmp tree
        if error ≠ 0 then (-error, tree) else (1, tree)

/-- `filter_sum`. -/
def filterSum (altpath : Bytes) (callback : Filter) (tree : FilterTree) : ℤ × FilterTree :=
  filterRequestAdd E altpath ⟨opGet2, uid, none⟩ callback tree

/-- `filter_sig`. -/
def filterSig (altpath : Bytes) (callback : Filter) (tree : FilterTree) : ℤ × FilterTree :=
  match E.as with
  | none => (0, tree)
  | some keyid => filterRequestAdd E altpath ⟨opGetsig2, 0, some keyid⟩ callback tree

def filterAdd (g : Group) (altpath : Bytes) (callback : Filter) (tree : FilterTree) : ℤ × FilterTree :=
  match g with
  | .sum => filterSum E uid altpath callback tree
  | .sig => filterSig E altpath callback tree

/-- The `if` statements of `filter_a_file` for some filters. -/
def addSelected (g : Group) (altpath : Bytes) (filters : List Filter) (r : ℤ × FilterTree) : ℤ × FilterTree :=
  filters.foldl (fun r f => if E.opts.selected f ∧ r.1 ≠ 0 then filterAdd E uid g altpath f r.2 else r) r

/-- The file has the wanted type. -/
def wantedType (altpath : Bytes) : Bool :=
  match E.fs.lstat altpath with
  | none => E.opts.orph
  | some kind =>
    if E.opts.orph then false else if E.opts.notfile then decide (kind ≠ .reg) else decide (kind = .reg)

/-- A name with the directory, if there is one. -/
def argPath (path : Option Bytes) (arg : Bytes) : Bytes := path.elim arg fun path => buildPath path arg

/-- `filter_a_file`. -/
def filterAFile (arg : Bytes) (path : Option Bytes) (tree : FilterTree) : ℤ × FilterTree :=
  let altpath := argPath path arg
  let r := (if wantedType E altpath then 1 else 0, tree)
  let r := addSelected E uid .sum altpath Group.sum.filters r
  addSelected E uid .sig altpath Group.sig.filters r

/-! ### Lists of names -/

/-- What the daemon does: it serves a request or not, and answers for each path. -/
structure Daemon where
  serve : Request → Bool
  answer : Query → Bytes → Reply

/-- Neither an empty entry nor a directory. -/
def isName (arg : Bytes) : Bool := decide (arg ≠ [] ∧ arg.getLast? ≠ some slash)

/-- The result of `filter_file_list`, the list with its holes, and the tree behind the call. -/
structure ListOut where
  ret : ℤ
  list : List (Option Bytes)
  tree : FilterTree

/-- The first loop of `filter_file_list`. -/
def addNames (path : Option Bytes) : List Bytes → FilterTree → ListOut
  | [], tree => ⟨0, [], tree⟩
  | arg :: list, tree =>
    if isName arg then
      let (ret, tree) := filterAFile E uid arg path tree
      if ret < 0 then ⟨-ret, some arg :: list.map some, tree⟩
      else
        let out := addNames path list tree
        { out with list := (if ret = 0 then none else some arg) :: out.list }
    else
      let out := addNames path list tree
      { out with list := some arg :: out.list }

/-- A record of the request has this path, and the callback does not accept its answer. -/
def refuses (D : Daemon) (node : Node) (path : Bytes) : Bool :=
  node.req.reqs.any fun record =>
    decide (record.path = path) && !node.callback.callback (D.answer (query node.req) record.path)

/-- `filter_result`. -/
def filterResult (D : Daemon) (path : Option Bytes) (node : Node) (list : List (Option Bytes)) :
    List (Option Bytes) :=
  list.map fun entry => entry.bind fun arg => if refuses D node (argPath path arg) then none else some arg

/-- The second loop of `filter_file_list`. -/
def processNodes (D : Daemon) (path : Option Bytes) : FilterTree → List (Option Bytes) → ListOut
  | [], list => ⟨0, list, []⟩
  | node :: tree, list =>
    if D.serve node.req then processNodes D path tree (filterResult D path node list) else ⟨1, list, tree⟩

/-- `filter_file_list`. -/
def filterFileList (D : Daemon) (list : List Bytes) (path : Option Bytes) (tree : FilterTree) : ListOut :=
  if list = [] then ⟨0, [], tree⟩
  else
    let out := addNames E uid path list tree
    if out.ret ≠ 0 then out else processNodes D path out.tree out.list

end Anoubis.Sfssig

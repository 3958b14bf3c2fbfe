import Anoubis.Apn.Copy
import Anoubis.Lib.Update

/-! Rule IDs and the operations on rulesets (`apnparser.c`, `apnescalations.c`).

    Blocks and rules carry an ID (`_rbentry.key`, 64 bit); the index `idtree` finds a rule by its ID.
    Queues and index are updated separately. `apn_valid_id`, `apn_find_rule` and `maxid` are 32 bit
    wide.

        parse --> add block --> … --> assign IDs --> init SFS block --> (add | insert | remove | …)*

    A node of the tree is part of the rule it belongs to, so the address of the rule stands for both.
    Functions return `none` where the program does not return (division by zero, endless loop). -/

namespace Anoubis.Apn

open Anoubis.Lib

/-- UINT_MAX + 1. -/
def uintMod : ℕ := 2 ^ 32

/-- `rand()`: the values it returns and how many were taken. -/
structure Rand where
  vals : ℕ → ℕ
  pos : ℕ

/-- One call of `rand()`; RAND_MAX is `2 ^ 31 - 1`. -/
def Rand.next (r : Rand) : ℕ × Rand := (r.vals r.pos % 2 ^ 31, { r with pos := r.pos + 1 })

/-- The fields `idtree` and `maxid` of a ruleset, and the random numbers to come. -/
structure Index where
  idtree : List IdEntry
  maxid : ℕ
  rnd : Rand

/-! ### The tree -/

/-- `rb_find`. -/
def rbFind (root : List IdEntry) (key : ℕ) : Option IdEntry := root.find? (fun e => e.key = key)

/-- `rb_insert_entry`: a second entry with the same key is ignored. -/
def rbInsertEntry (root : List IdEntry) (n : IdEntry) : List IdEntry :=
  if (rbFind root n.key).isSome then root else n :: root

/-- `rb_remove_entry` of the node inside the rule at address `data`. -/
def rbRemoveEntry (root : List IdEntry) (data : ℕ) : List IdEntry :=
  root.eraseP (fun e => e.data = data)

/-- `apn_valid_id`. -/
def apnValidId (root : List IdEntry) (id : ℕ) : Bool := (rbFind root (id % uintMod)).isNone

/-- `apn_find_rule`: the address of the rule. -/
def apnFindRule (root : List IdEntry) (id : ℕ) : Option ℕ :=
  (rbFind root (id % uintMod)).map (·.data)

/-- `apn_insert_id`. -/
def apnInsertId (ix : Index) (key data : ℕ) : Index :=
  let maxid := if ix.maxid < 10 then 10 else ix.maxid
  { ix with
    idtree := rbInsertEntry ix.idtree ⟨key, data⟩
    maxid := if maxid < key then key % uintMod else maxid }

/-- The `for` loop of `apn_assign_id`. -/
def randomTries (root : List IdEntry) (maxid : ℕ) : ℕ → Rand → Option ℕ × Rand
  | 0, rnd => (none, rnd)
  | n + 1, rnd =>
    let (v, rnd) := rnd.next
    let nid := 1 + v % maxid
    if (rbFind root nid).isNone then (some nid, rnd) else randomTries root maxid n rnd

/-- The `while (1)` loop of `apn_assign_id` up to the linear search: the ID that was found, `maxid`
    and the random numbers left. `maxid` is doubled at most 31 times. -/
def randomLoop (root : List IdEntry) : ℕ → ℕ → Rand → Option ℕ × ℕ × Rand
  | 0, maxid, rnd => (none, maxid, rnd)
  | n + 1, maxid, rnd =>
    match randomTries root maxid 20 rnd with
    | (some nid, rnd) => (some nid, maxid, rnd)
    | (none, rnd) =>
      if maxid < 2 * maxid % uintMod then randomLoop root n (2 * maxid % uintMod) rnd
      else (none, maxid, rnd)

/-- The linear search of `apn_assign_id`; after `maxid` steps it never ends. -/
def linearSearch (root : List IdEntry) (maxid : ℕ) : ℕ → ℕ → Option ℕ
  | 0, _ => none
  | n + 1, nid =>
    if (rbFind root nid).isSome then linearSearch root maxid n ((nid + 1) % maxid) else some nid

/-- `apn_assign_id` for the rule at address `e`: its new ID. -/
def apnAssignId (ix : Index) (e : ℕ) : Option (ℕ × Index) :=
  if ix.maxid = 0 then none
  else
    let (found, maxid, rnd) := randomLoop ix.idtree 32 ix.maxid ix.rnd
    let nid := match found with
      | some nid => some nid
      | none => linearSearch ix.idtree maxid maxid (e % maxid)
    nid.map (fun nid => (nid, ⟨rbInsertEntry ix.idtree ⟨nid, e⟩, maxid, rnd⟩))

/-- Assign IDs to the rules of a chain whose ID satisfies `sel`. -/
def assignChain (sel : ℕ → Bool) : Index → List Rule → Option (List Rule × Index)
  | ix, [] => some ([], ix)
  | ix, r :: chain =>
    if sel r.id then do
      let (nid, ix) ← apnAssignId ix r.ptr
      let (chain, ix) ← assignChain sel ix chain
      some ({ r with id := nid } :: chain, ix)
    else do
      let (chain, ix) ← assignChain sel ix chain
      some (r :: chain, ix)

/-- First the rules of a block, then the block. -/
def assignBlock (sel : ℕ → Bool) (ix : Index) (b : Block) : Option (Block × Index) := do
  let (chain, ix) ← assignChain sel ix b.chain
  if sel b.id then do
    let (nid, ix) ← apnAssignId ix b.ptr
    some ({ b with id := nid, chain := chain }, ix)
  else some ({ b with chain := chain }, ix)

/-- `apn_update_ids`. -/
def apnUpdateIds : Index → Block → Option (Block × Index) := assignBlock (fun _ => true)

/-- `apn_assign_ids_one` on a block. -/
def apnAssignIdsOne : Index → Block → Option (Block × Index) := assignBlock (fun id => id = 0)

/-- `apn_assign_ids_chain` on a queue. -/
def apnAssignIdsChain : Index → List Block → Option (List Block × Index)
  | ix, [] => some ([], ix)
  | ix, b :: queue => do
    let (b, ix) ← apnAssignIdsOne ix b
    let (queue, ix) ← apnAssignIdsChain ix queue
    some (b :: queue, ix)

/-! ### Rulesets -/

/-- A ruleset and the random numbers to come. -/
structure RsState where
  rs : Ruleset
  rnd : Rand

def RsState.index (s : RsState) : Index := ⟨s.rs.idtree, s.rs.maxid, s.rnd⟩

def RsState.setIndex (s : RsState) (ix : Index) : RsState :=
  ⟨{ s.rs with idtree := ix.idtree, maxid := ix.maxid }, ix.rnd⟩

def Ruleset.queue (rs : Ruleset) : Kind → List Block
  | .alf => rs.alfQueue
  | .sfs => rs.sfsQueue
  | .sb => rs.sbQueue
  | .ctx => rs.ctxQueue

def Ruleset.setQueue (rs : Ruleset) (k : Kind) (q : List Block) : Ruleset :=
  match k with
  | .alf => { rs with alfQueue := q }
  | .sfs => { rs with sfsQueue := q }
  | .sb => { rs with sbQueue := q }
  | .ctx => { rs with ctxQueue := q }

def RsState.setQueue (s : RsState) (k : Kind) (q : List Block) : RsState :=
  { s with rs := s.rs.setQueue k q }

/-- `apn_assign_ids`: the queues in the order ALF, SFS, sandbox, context. -/
def apnAssignIds (s : RsState) : Option RsState := do
  let (alf, ix) ← apnAssignIdsChain s.index s.rs.alfQueue
  let (sfs, ix) ← apnAssignIdsChain ix s.rs.sfsQueue
  let (sb, ix) ← apnAssignIdsChain ix s.rs.sbQueue
  let (ctx, ix) ← apnAssignIdsChain ix s.rs.ctxQueue
  let s := s.setIndex ix
  some { s with rs := { s.rs with alfQueue := alf, sfsQueue := sfs, sbQueue := sb, ctxQueue := ctx } }

/-- `apn_duplicate_ids`. -/
def apnDuplicateIds (b : Block) : Bool :=
  !decide ((b.id :: b.chain.map (·.id)).filter (fun id => id ≠ 0)).Nodup

/-- What `__apn_add_block_common` returns. -/
inductive AddResult where
  | added (rs : Ruleset)
  | duplicate
  | unprintable (rs : Ruleset)

/-- Enter the explicit IDs of a block into the index. -/
def insertIds (ix : Index) (b : Block) : Index :=
  (⟨b.id, b.ptr⟩ :: b.chain.map (fun r => (⟨r.id, r.ptr⟩ : IdEntry))).foldl
    (fun ix e => if e.key ≠ 0 then apnInsertId ix e.key e.data else ix) ix

/-- `__apn_add_block_common`; `prints` tells whether `apn_print_rule` can print the block. -/
def apnAddBlockCommon (prints : Block → Bool) (rs : Ruleset) (b : Block) : AddResult :=
  if apnDuplicateIds b then .duplicate
  else if (b.id :: b.chain.map (·.id)).any (fun id => id ≠ 0 && !apnValidId rs.idtree id) then
    .duplicate
  else
    let ix := insertIds ⟨rs.idtree, rs.maxid, ⟨fun _ => 0, 0⟩⟩ b
    let rs := { rs with idtree := ix.idtree, maxid := ix.maxid }
    if rs.flags &&& flagVerbose ≠ 0 ∧ ¬ prints b then .unprintable rs
    else .added (rs.setQueue b.kind (rs.queue b.kind ++ [b]))

/-- UINT_MAX. -/
def uintMax : ℕ := uintMod - 1

/-- `apn_add`: the return value and the new state. -/
def apnAdd (s : RsState) (b : Block) : Option (ℤ × RsState) :=
  if s.rs.maxid = uintMax then some (1, s)
  else do
    let (b, ix) ← apnUpdateIds s.index b
    some (0, (s.setIndex ix).setQueue b.kind (b :: s.rs.queue b.kind))

/-- `apn_search_rule`: the block with this ID in the queue. -/
def apnSearchRule (rs : Ruleset) (k : Kind) (id : ℕ) : Option Block := do
  let p ← apnFindRule rs.idtree id
  (rs.queue k).find? (fun b => b.ptr = p)

/-- `apn_search_rule_deep`: the block of the queue whose chain holds the rule at address `p`. -/
def searchDeep (rs : Ruleset) (k : Kind) (p : ℕ) : Option Block :=
  (rs.queue k).find? (fun b => b.chain.any (fun r => r.ptr = p))

/-- The checks of `apn_insert`: where in its queue the block goes. -/
def insertPlace (rs : Ruleset) (k : Kind) (id : ℕ) : Option (Block → List Block) :=
  if rs.maxid = uintMax then none
  else if k = .sfs ∧ rs.sfsQueue ≠ [] then none
  else if id = 0 then
    if rs.queue k ≠ [] then none else some (fun b => b :: rs.queue k)
  else (apnSearchRule rs k id).map (fun p b => insertBefore (fun c => c.ptr = p.ptr) b (rs.queue k))

/-- `apn_insert`. -/
def apnInsert (s : RsState) (b : Block) (id : ℕ) : Option (ℤ × RsState) :=
  match insertPlace s.rs b.kind id with
  | none => some (1, s)
  | some place => do
    let (b, ix) ← apnUpdateIds s.index b
    some (0, (s.setIndex ix).setQueue b.kind (place b))

/-- `init_sfs_rule` with the new block at address `ptr`. -/
def initSfsRule (s : RsState) (ptr : ℕ) : Option (ℤ × RsState) :=
  if s.rs.sfsQueue ≠ [] then some (0, s)
  else apnInsert s ⟨ptr, 0, .sfs, [], Flags.none, []⟩ 0

/-- `apn_verify_types`. -/
def apnVerifyTypes (parent : Kind) (child : Body) : Bool :=
  match parent, child with
  | .alf, .default _ | .alf, .alfFilter .. | .alf, .alfCapability .. => true
  | .sb, .default _ | .sb, .sbAccess .. => true
  | .sfs, .sfsAccess .. | .sfs, .sfsDefault .. => true
  | .ctx, .ctxRule .. => true
  | _, _ => false

/-- Change the chain of the block at address `p`. -/
def modifyChain (p : ℕ) (f : List Rule → List Rule) (queue : List Block) : List Block :=
  modifyFirst (fun b => b.ptr = p) (fun b => { b with chain := f b.chain }) queue

/-- The checks of `apn_insert_rule_common`: the block that takes the rule and the place in its chain. -/
def rulePlace (rs : Ruleset) (k : Kind) (rule : Rule) (id : ℕ) :
    Option (Block × (Rule → List Rule → List Rule)) :=
  if rs.maxid = uintMax ∨ id < 1 then none
  else if rule.id ≠ 0 ∧ ¬ apnValidId rs.idtree rule.id then none
  else do
    let p ← apnFindRule rs.idtree id
    match searchDeep rs k p with
    | some b => some (b, insertBefore (fun r => r.ptr = p))
    | none => (apnSearchRule rs k id).map (fun b => (b, List.cons))

/-- A rule without ID gets a new one, any other ID is entered into the index. -/
def enterRule (ix : Index) (rule : Rule) : Option (ℕ × Index) :=
  if rule.id = 0 then apnAssignId ix rule.ptr else some (rule.id, apnInsertId ix rule.id rule.ptr)

/-- `apn_insert_rule_common`. -/
def apnInsertRuleCommon (s : RsState) (k : Kind) (rule : Rule) (id : ℕ) : Option (ℤ × RsState) :=
  match rulePlace s.rs k rule id with
  | none => some (1, s)
  | some (b, place) => do
    let (nid, ix) ← enterRule s.index rule
    some (0, (s.setIndex ix).setQueue k
      (modifyChain b.ptr (place { rule with id := nid }) (s.rs.queue k)))

/-- `apn_insert_sfsrule` takes the ID of the SFS block if `id` is 0. -/
def anchorId (rs : Ruleset) (k : Kind) (id : ℕ) : ℕ :=
  if k = .sfs ∧ id = 0 then (rs.sfsQueue.head?.map (fun b => b.id % uintMod)).getD 0 else id

/-- `apn_insert_alfrule`, `apn_insert_sfsrule`, `apn_insert_sbrule` and `apn_insert_ctxrule`. -/
def apnInsertRule (s : RsState) (k : Kind) (rule : Rule) (id : ℕ) : Option (ℤ × RsState) :=
  if apnVerifyTypes k rule.body then apnInsertRuleCommon s k rule (anchorId s.rs k id)
  else some (1, s)

/-- The rules of a chain at the addresses `alloc n`, `alloc (n + 1)`, … -/
def copyChain (alloc : ℕ → ℕ) : ℕ → List Rule → List Rule
  | _, [] => []
  | n, r :: chain => { r with ptr := alloc n } :: copyChain alloc (n + 1) chain

/-- `apn_copy_chain`: the bodies are what `apn_copy_one_rule` makes of them. -/
def copyRules (alloc : ℕ → ℕ) (n : ℕ) (chain : List Rule) : List Rule :=
  (copyChain alloc n chain).map (fun r => { r with body := codeBody r.body })

/-- The copy that `apn_copyinsert_common` makes, at address `alloc 0`, and the ID of the original. -/
def copyBlock (rs : Ruleset) (nrule : Rule) (id : ℕ) (filename : Text) (subject : Subject) (k : Kind)
    (alloc : ℕ → ℕ) : Option (Block × ℕ) :=
  if id < 1 ∨ rs.maxid = uintMax ∨ ¬ apnVerifyTypes k nrule.body ∨ k = .sfs then none
  else do
    let p ← apnFindRule rs.idtree id
    let rule ← searchDeep rs k p
    let chain := copyRules alloc 1 rule.chain
    if chain.any (fun r => r.id = id) then
      some (⟨alloc 0, rule.id, k, [⟨some filename, subject⟩], Flags.none,
        insertBefore (fun r => r.id = id) nrule chain⟩, rule.id)
    else none

/-- `apn_copyinsert_common`. -/
def apnCopyinsertCommon (s : RsState) (nrule : Rule) (id : ℕ) (filename : Text) (subject : Subject)
    (k : Kind) (alloc : ℕ → ℕ) : Option (ℤ × RsState) :=
  match copyBlock s.rs nrule id filename subject k alloc with
  | none => some (1, s)
  | some (b, orig) => apnInsert s b (orig % uintMod)

/-- APN_DEFAULT and APN_SFS_DEFAULT. -/
def Body.isDefault : Body → Bool
  | .default _ => true
  | .sfsDefault .. => true
  | _ => false

/-- The `while` loop of `apn_escalation_splice`. -/
def spliceLoop (append : Bool) (anchor : ℕ) : Index → List Rule → List Rule → Option (List Rule × Index)
  | ix, dst, [] => some (dst, ix)
  | ix, dst, rule :: chain => do
    let (nid, ix) ← apnAssignId ix rule.ptr
    let rule := { rule with id := nid }
    let dst := if append && !rule.body.isDefault then dst ++ [rule]
      else insertBefore (fun r => r.ptr = anchor) rule dst
    spliceLoop append anchor ix dst chain

/-- `TAILQ_NEXT(anchor, entry) != NULL`. -/
def hasNext (anchor : ℕ) (chain : List Rule) : Bool :=
  chain.getLast?.any (fun r => r.ptr ≠ anchor)

/-- The checks of `apn_escalation_splice` for a rule at address `anchor` in a block of the queue `k`: the
    block, and whether rules that are not defaults are appended. -/
def splicePlace (rs : Ruleset) (k : Kind) (anchor : ℕ) (chain : List Rule) : Option (Block × Bool) := do
  let b ← searchDeep rs k anchor
  let a ← b.chain.find? (fun r => r.ptr = anchor)
  if !a.body.isDefault && chain.any (fun r => r.body.isDefault) then none
  else some (b, a.body.isDefault && hasNext anchor b.chain)

/-- `apn_escalation_splice`. -/
def apnEscalationSplice (s : RsState) (k : Kind) (anchor : ℕ) (chain : List Rule) :
    Option (ℤ × RsState) :=
  match splicePlace s.rs k anchor chain with
  | none => some (-einval, s)
  | some (b, append) => do
    let (dst, ix) ← spliceLoop append anchor s.index b.chain chain
    some (0, (s.setIndex ix).setQueue k (modifyChain b.ptr (fun _ => dst) (s.rs.queue k)))

/-- The queues in the order in which a rule is looked for. -/
def Kind.all : List Kind := [.alf, .sfs, .sb, .ctx]

/-- `apn_free_one_rule` of a block: the rules of its chain leave the index first. -/
def freeBlock (root : List IdEntry) (b : Block) : List IdEntry :=
  rbRemoveEntry ((b.chain.map (·.ptr)).foldl rbRemoveEntry root) b.ptr

/-- `apn_remove`. -/
def apnRemove (s : RsState) (id : ℕ) : ℤ × RsState :=
  if id < 1 ∨ s.rs.maxid = uintMax then (1, s)
  else match apnFindRule s.rs.idtree id with
    | none => (2, s)
    | some p =>
      match Kind.all.find? (fun k => ((s.rs.queue k).find? (fun b => b.ptr = p)).isSome) with
      | some k =>
        if k = .sfs then (-1, s)
        else match (s.rs.queue k).find? (fun b => b.ptr = p) with
          | none => (-1, s)
          | some b =>
            (0, ({ s with rs := { s.rs with idtree := freeBlock s.rs.idtree b } }).setQueue k
              ((s.rs.queue k).eraseP (fun c => c.ptr = p)))
      | none =>
        match Kind.all.find? (fun k => (searchDeep s.rs k p).isSome) with
        | none => (-1, s)
        | some k =>
          match searchDeep s.rs k p with
          | none => (-1, s)
          | some b =>
            (0, ({ s with rs := { s.rs with idtree := rbRemoveEntry s.rs.idtree p } }).setQueue k
              (modifyChain b.ptr (fun chain => chain.eraseP (fun r => r.ptr = p)) (s.rs.queue k)))

/-- `hp->scope && (*check)(hp->scope, data)`. -/
def Rule.expired (check : Scope → Bool) (r : Rule) : Bool := r.scope.any check

/-- `apn_clean_rule` and `apn_clean_ruleq` on one queue. -/
def apnCleanRuleq (check : Scope → Bool) (rs : Ruleset) (k : Kind) : Ruleset :=
  let gone := (rs.queue k).flatMap (fun b => (b.chain.filter (Rule.expired check)).map (·.ptr))
  ({ rs with idtree := gone.foldl rbRemoveEntry rs.idtree }).setQueue k
    ((rs.queue k).map (fun b : Block => { b with chain := b.chain.filter (fun r => !r.expired check) }))

/-- `apn_clean_ruleset`. -/
def apnCleanRuleset (rs : Ruleset) (check : Scope → Bool) : Ruleset :=
  Kind.all.foldl (apnCleanRuleq check) rs

/-- The operations of the library on a ruleset. -/
inductive Op where
  | add (b : Block)
  | insert (b : Block) (id : ℕ)
  | insertRule (k : Kind) (rule : Rule) (id : ℕ)
  | copyinsert (k : Kind) (nrule : Rule) (id : ℕ) (filename : Text) (subject : Subject) (alloc : ℕ → ℕ)
  | splice (k : Kind) (anchor : ℕ) (chain : List Rule)
  | remove (id : ℕ)
  | clean (check : Scope → Bool)

/-- One call; the parameters `id` are of type `unsigned int`. -/
def applyOp (s : RsState) : Op → Option (ℤ × RsState)
  | .add b => apnAdd s b
  | .insert b id => apnInsert s b (id % uintMod)
  | .insertRule k rule id => apnInsertRule s k rule (id % uintMod)
  | .copyinsert k nrule id filename subject alloc =>
    apnCopyinsertCommon s nrule (id % uintMod) filename subject k alloc
  | .splice k anchor chain => apnEscalationSplice s k anchor chain
  | .remove id => some (apnRemove s (id % uintMod))
  | .clean check => some (0, ⟨apnCleanRuleset s.rs check, s.rnd⟩)

/-- A sequence of calls. -/
def applyOps : RsState → List Op → Option RsState
  | s, [] => some s
  | s, op :: ops => do
    let (_, s) ← applyOp s op
    applyOps s ops

end Anoubis.Apn

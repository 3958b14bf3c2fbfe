import Anoubis.Lib.Refs
import Anoubis.Lib.RedBlack

/-! The red-black tree of rules, by pointers (`rbtree.c`).

    A program works on the memory of the entries and on the root pointer. An access through a NULL
    pointer makes it fail, and so does a loop that does not end. -/

namespace Anoubis.Apn.RbTree

open Anoubis.Lib

/-- `struct rb_entry *`; `none` is NULL. -/
abbrev Ptr := Option ℕ

/-- `struct rb_entry`, with an `unsigned long` key. -/
structure Entry where
  key : ℕ
  left : Ptr
  right : Ptr
  parent : Ptr
  col : Color

/-- `e->left` or `e->right`. -/
def Entry.child (e : Entry) : Side → Ptr
  | .left => e.left
  | .right => e.right

def Entry.setChild (e : Entry) (v : Ptr) : Side → Entry
  | .left => { e with left := v }
  | .right => { e with right := v }

def Entry.setParent (e : Entry) (v : Ptr) : Entry := { e with parent := v }

def Entry.setCol (e : Entry) (c : Color) : Entry := { e with col := c }

/-- `*root` and the entries by address, also those that are not in the tree. -/
structure Mem where
  root : Ptr
  heap : ℕ → Entry

/-- One entry changes. -/
def Mem.upd (m : Mem) (a : ℕ) (f : Entry → Entry) : Mem :=
  { m with heap := Function.update m.heap a (f (m.heap a)) }

abbrev M := StateT Mem Option

/-! ### Memory -/

/-- `*p`. -/
def load : Ptr → M Entry
  | none => failure
  | some a => fun m => some (m.heap a, m)

def store (f : Entry → Entry) : Ptr → M Unit
  | none => failure
  | some a => fun m => some ((), m.upd a f)

/-- `*root`. -/
def loadRoot : M Ptr := fun m => some (m.root, m)

/-- `*root = p`. -/
def setRoot (p : Ptr) : M Unit := fun m => some ((), { m with root := p })

/-- `p->left = v` or `p->right = v`. -/
def setChild (s : Side) (p v : Ptr) : M Unit := store (fun e => e.setChild v s) p

/-- `p->parent = v`. -/
def setParent (p v : Ptr) : M Unit := store (fun e => e.setParent v) p

/-- `p->col = c`. -/
def setCol (p : Ptr) (c : Color) : M Unit := store (fun e => e.setCol c) p

/-- `if (p) p->parent = v`. -/
def adopt (p v : Ptr) : M Unit :=
  match p with
  | none => pure ()
  | some _ => setParent p v

/-- `p && p->col == ARB_RED`. -/
def isRed : Ptr → M Bool
  | none => pure false
  | some a => do
    let x ← load (some a)
    pure (x.col = .red)

/-! ### Rotations -/

/-- The pointer to `e` in its parent `p`, or in the root, becomes `r`. -/
def replaceChild (p e r : Ptr) : M Unit :=
  match p with
  | none => setRoot r
  | some _ => do
    let x ← load p
    if x.left = e then setChild .left p r else setChild .right p r

/-- The child of `e` opposite to side `s` replaces `e`. -/
def rotate (s : Side) (e : Ptr) : M Unit := do
  let x ← load e
  let p := x.parent
  let l := x.child s
  let r := x.child s.other
  let y ← load r
  let rl := y.child s
  let rr := y.child s.other
  setChild s e l
  setChild s.other e rl
  adopt l e
  adopt rl e
  setChild s r e
  setChild s.other r rr
  setParent e r
  adopt rr r
  setParent r p
  replaceChild p e r

/-- `rotate_left`. -/
def rotateLeft (e : Ptr) : M Unit := rotate .left e

/-- `rotate_right`. -/
def rotateRight (e : Ptr) : M Unit := rotate .right e

/-! ### Search -/

/-- `rb_find`. -/
def rbFind (root : Ptr) (key : ℕ) : M Ptr :=
  loop (fun root => match root with
    | none => pure (.inr none)
    | some a => do
      let x ← load (some a)
      if x.key = key then pure (.inr (some a))
      else if x.key > key then pure (.inl x.left)
      else pure (.inl x.right)) root

theorem rbFind_none (key : ℕ) : rbFind none key = pure none := by
  rw [rbFind, loop_eq, inr_next]

theorem rbFind_some (a key : ℕ) : rbFind (some a) key = (do
    let x ← load (some a)
    if x.key = key then pure (some a)
    else if x.key > key then rbFind x.left key
    else rbFind x.right key) := by
  rw [rbFind, loop_eq]
  simp only [bind_assoc, ite_next, inr_next, inl_next]
  rfl

/-! ### Insertion -/

/-- `struct rb_entry **`: the root, or a field of an entry. -/
inductive Slot where
  | root
  | child (s : Side) (a : ℕ)

/-- `*rp`. -/
def loadSlot : Slot → M Ptr
  | .root => loadRoot
  | .child s a => do
    let x ← load (some a)
    pure (x.child s)

/-- `*rp = p`. -/
def storeSlot (p : Ptr) : Slot → M Unit
  | .root => setRoot p
  | .child s a => setChild s (some a) p

/-- The search for the place of `n`: `parent` and `rp`, or nothing if the key is there already. -/
def findPlace (n : ℕ) (parent : Ptr) (rp : Slot) : M (Option (Ptr × Slot)) :=
  loop (fun (place : Ptr × Slot) => do
    let cur ← loadSlot place.2
    match cur with
    | none => pure (.inr (some place))
    | some a => do
      let x ← load (some a)
      let y ← load (some n)
      if x.key = y.key then pure (.inr none)
      else if x.key > y.key then pure (.inl (some a, .child .left a))
      else pure (.inl (some a, .child .right a))) (parent, rp)

theorem findPlace_eq (n : ℕ) (parent : Ptr) (rp : Slot) : findPlace n parent rp = (do
    let cur ← loadSlot rp
    match cur with
    | none => pure (some (parent, rp))
    | some a => do
      let x ← load (some a)
      let y ← load (some n)
      if x.key = y.key then pure none
      else if x.key > y.key then findPlace n (some a) (.child .left a)
      else findPlace n (some a) (.child .right a)) := by
  rw [findPlace, loop_eq, bind_assoc]
  refine bind_congr fun cur => ?_
  cases cur with
  | none => exact inr_next _ _
  | some a =>
    simp only [bind_assoc, ite_next, inr_next, inl_next]
    rfl

/-- Put `n` into the slot. -/
def link (n : ℕ) (parent : Ptr) (rp : Slot) : M Unit := do
  storeSlot (some n) rp
  setChild .right (some n) none
  setChild .left (some n) none
  setParent (some n) parent
  setCol (some n) .red

/-- `gp->left && gp->right && gp->left->col == ARB_RED && gp->right->col == ARB_RED`. -/
def bothRed (gp : Ptr) : M Bool := do
  let g ← load gp
  let l ← isRed g.left
  let r ← isRed g.right
  pure (l && r)

/-- `if (gp != *root) gp->col = ARB_RED`. -/
def redden (gp : Ptr) : M Unit := do
  let root ← loadRoot
  if gp ≠ root then setCol gp .red else pure ()

/-- `p->left->col = p->right->col = c`. -/
def paintChildren (p : Ptr) (c : Color) : M Unit := do
  let x ← load p
  setCol x.right c
  setCol x.left c

/-- `n` and its parent are red, and so is the sibling of the parent. -/
def recolour (gp : Ptr) : M Unit := do
  redden gp
  paintChildren gp .black

/-- Bring `n`, its parent and its grandparent in line. -/
def straighten (n parent gp : Ptr) : M Unit := do
  let g ← load gp
  let x ← load parent
  if g.left = parent ∧ x.right = n then rotateLeft parent
  else if g.right = parent ∧ x.left = n then rotateRight parent
  else pure ()

/-- The red child of the grandparent replaces it. -/
def raise (gp : Ptr) : M Ptr := do
  let g ← load gp
  let red ← isRed g.left
  if red then do
    rotateRight gp
    pure g.left
  else do
    rotateLeft gp
    pure g.right

/-- `n` and its parent are red, but the sibling of the parent is not. -/
def rebalance (n parent gp : Ptr) : M Unit := do
  straighten n parent gp
  let r ← raise gp
  setCol r .black
  paintChildren r .red
  let root ← loadRoot
  setCol root .black

/-- The label `fixup` of `rb_insert_entry`. -/
def insertFixup (n parent : Ptr) : M Unit :=
  loop (fun (here : Ptr × Ptr) => match here.2 with
    | none => do
      setCol here.1 .black
      pure (.inr ())
    | some p => do
      let x ← load (some p)
      if x.col = .black then pure (.inr ())
      else do
        let both ← bothRed x.parent
        if both then do
          recolour x.parent
          let g ← load x.parent
          pure (.inl (x.parent, g.parent))
        else do
          rebalance here.1 (some p) x.parent
          pure (.inr ())) (n, parent)

theorem insertFixup_none (n : Ptr) : insertFixup n none = setCol n .black := by
  rw [insertFixup, loop_eq, bind_assoc]
  simp only [inr_next]
  exact bind_pure _

theorem insertFixup_some (n : Ptr) (p : ℕ) : insertFixup n (some p) = (do
    let x ← load (some p)
    if x.col = .black then pure ()
    else do
      let both ← bothRed x.parent
      if both then do
        recolour x.parent
        let g ← load x.parent
        insertFixup x.parent g.parent
      else rebalance n (some p) x.parent) := by
  rw [insertFixup, loop_eq]
  simp only [bind_assoc, ite_next, inr_next, inl_next, bind_pure_unit]
  rfl

/-- `rb_insert_entry`. -/
def rbInsertEntry (n : ℕ) : M ℕ := do
  let place ← findPlace n none .root
  match place with
  | none => pure 0
  | some (parent, rp) => do
    link n parent rp
    insertFixup (some n) parent
    pure 1

/-! ### Removal -/

/-- `e->parent && e->parent->left == e`. -/
def isLeft (e : ℕ) : M Bool := do
  let x ← load (some e)
  match x.parent with
  | none => pure false
  | some p => do
    let y ← load (some p)
    pure (y.left = some e)

/-- `RBSWAP(FIELD)` for a child. -/
def swapChild (s : Side) (e1 e2 : Ptr) : M Unit := do
  let x ← load e1
  let y ← load e2
  setChild s e1 (y.child s)
  setChild s e2 (x.child s)

/-- `RBSWAP(parent)`. -/
def swapParent (e1 e2 : Ptr) : M Unit := do
  let x ← load e1
  let y ← load e2
  setParent e1 y.parent
  setParent e2 x.parent

def swapCol (e1 e2 : Ptr) : M Unit := do
  let x ← load e1
  let y ← load e2
  setCol e1 y.col
  setCol e2 x.col

/-- One side of `rb_swap` if `e1` is the parent of `e2`. -/
def swapNear (s : Side) (e1 e2 : Ptr) : M Unit := do
  let x ← load e1
  if x.child s = e2 then do
    let y ← load e2
    setChild s e1 (y.child s)
    setChild s e2 e1
  else swapChild s e1 e2

/-- The pointers in `e1` and `e2`. -/
def swapFields (e1 e2 : Ptr) : M Unit := do
  let y ← load e2
  if y.parent = e1 then do
    let x ← load e1
    setParent e2 x.parent
    setParent e1 e2
    swapNear .left e1 e2
    swapNear .right e1 e2
  else do
    swapParent e1 e2
    swapChild .left e1 e2
    swapChild .right e1 e2

/-- `e` has taken the place of an entry that was the root, or a left or a right child. -/
def fixParent (isRoot left : Bool) (e : Ptr) : M Unit :=
  if isRoot then setRoot e
  else do
    let x ← load e
    setChild (if left then .left else .right) x.parent e

/-- `if (e->left) e->left->parent = e`, and the same for the right child. -/
def fixChildren (e : Ptr) : M Unit := do
  let x ← load e
  adopt x.left e
  let x ← load e
  adopt x.right e

/-- `rb_swap` with `e1->parent != e2`. -/
def swapDown (e1 e2 : ℕ) : M Unit := do
  let x ← load (some e1)
  let e1left ← isLeft e1
  let y ← load (some e2)
  let e2left ← isLeft e2
  swapCol (some e1) (some e2)
  swapFields (some e1) (some e2)
  fixParent x.parent.isNone e1left (some e2)
  fixParent y.parent.isNone e2left (some e1)
  fixChildren (some e1)
  fixChildren (some e2)

/-- `rb_swap`. -/
def rbSwap (e1 e2 : ℕ) : M Unit := do
  let x ← load (some e1)
  if x.parent = some e2 then swapDown e2 e1 else swapDown e1 e2

/-- `while (swp->right) swp = swp->right`. -/
def rightmost (swp : ℕ) : M ℕ :=
  loop (fun swp => do
    let x ← load (some swp)
    match x.right with
    | none => pure (.inr swp)
    | some a => pure (.inl a)) swp

theorem rightmost_eq (swp : ℕ) : rightmost swp = (do
    let x ← load (some swp)
    match x.right with
    | none => pure swp
    | some a => rightmost a) := by
  rw [rightmost, loop_eq, bind_assoc]
  refine bind_congr fun x => ?_
  cases x.right with
  | none => exact inr_next _ _
  | some a => exact inl_next _ _

/-- `children_black`. -/
def childrenBlack (rb : Ptr) : M Bool := do
  let x ← load rb
  let l ← isRed x.left
  let r ← isRed x.right
  pure (!l && !r)

/-- If the entry has a left child it changes places with its predecessor. -/
def swapPred (e : ℕ) : M Unit := do
  let x ← load (some e)
  match x.left with
  | none => pure ()
  | some l => do
    let swp ← rightmost l
    rbSwap e swp

/-- Replace `e` by `cld` in its parent `p`: the value of `pleft`. -/
def unlinkFrom (p e cld : Ptr) : M ℤ :=
  match p with
  | none => do
    setRoot cld
    pure (-1)
  | some _ => do
    let x ← load p
    if x.left = e then do
      setChild .left p cld
      pure 1
    else do
      setChild .right p cld
      pure 0

/-- `cld`, and `pleft`. -/
def unlink (e : ℕ) : M (Ptr × ℤ) := do
  let x ← load (some e)
  let cld := if x.left.isSome then x.left else x.right
  adopt cld x.parent
  let pleft ← unlinkFrom x.parent (some e) cld
  pure (cld, pleft)

/-- The side of `p` that lacks a black node. -/
def lacking (pleft : ℤ) : Side := if pleft ≠ 0 then .left else .right

/-- Case 1: the other child is red. -/
def removeRed (s : Side) (p : Ptr) : M Unit := do
  let x ← load p
  let y ← load (x.child s.other)
  if y.col = .red then do
    setCol (x.child s.other) .black
    setCol p .red
    rotate s p
  else pure ()

/-- The test of case 2. -/
def removeBlack (s : Side) (p : Ptr) : M Bool := do
  let x ← load p
  let y ← load (x.child s.other)
  let black ← childrenBlack (x.child s.other)
  pure (y.col = .black && black)

/-- Case 2: returns true for `goto retry`. -/
def removeRecolour (s : Side) (p : Ptr) : M Bool := do
  let x ← load p
  if x.col = .black then do
    setCol (x.child s.other) .red
    pure true
  else do
    setCol (x.child s.other) .red
    setCol p .black
    pure false

/-- `!p || p->col == ARB_BLACK`. -/
def isBlack : Ptr → M Bool
  | none => pure true
  | some a => do
    let x ← load (some a)
    pure (x.col = .black)

/-- Case 3a. -/
def removeTurn (s : Side) (p : Ptr) : M Unit := do
  let x ← load p
  let y ← load (x.child s.other)
  let black ← isBlack (y.child s.other)
  if black then do
    rotate s.other (x.child s.other)
    let x ← load p
    setCol (x.child s.other) .black
    let y ← load (x.child s.other)
    setCol (y.child s.other) .red
  else pure ()

/-- Case 3b. -/
def removeLift (s : Side) (p : Ptr) : M Unit := do
  let x ← load p
  let y ← load (x.child s.other)
  setCol (y.child s.other) .black
  setCol (x.child s.other) x.col
  setCol p .black
  rotate s p

/-- `if (*root) (*root)->col = ARB_BLACK`. -/
def blackRoot : M Unit := do
  let root ← loadRoot
  match root with
  | none => pure ()
  | some a => setCol (some a) .black

/-- The label `fixup` of `rb_remove_entry`. -/
def removeFixup (s : Side) (p : ℕ) : M Unit :=
  loop (fun (here : Side × ℕ) => do
    removeRed here.1 (some here.2)
    let black ← removeBlack here.1 (some here.2)
    if black then do
      let retry ← removeRecolour here.1 (some here.2)
      if retry then do
        let x ← load (some here.2)
        match x.parent with
        | none => pure (.inr ())
        | some q => do
          let y ← load (some q)
          pure (.inl (if y.left = some here.2 then .left else .right, q))
      else pure (.inr ())
    else do
      removeTurn here.1 (some here.2)
      removeLift here.1 (some here.2)
      blackRoot
      pure (.inr ())) (s, p)

theorem removeFixup_eq (s : Side) (p : ℕ) : removeFixup s p = (do
    removeRed s (some p)
    let black ← removeBlack s (some p)
    if black then do
      let retry ← removeRecolour s (some p)
      if retry then do
        let x ← load (some p)
        match x.parent with
        | none => pure ()
        | some q => do
          let y ← load (some q)
          removeFixup (if y.left = some p then .left else .right) q
      else pure ()
    else do
      removeTurn s (some p)
      removeLift s (some p)
      blackRoot) := by
  rw [removeFixup, loop_eq]
  simp only [bind_assoc, ite_next, inr_next, bind_pure_unit]
  refine bind_congr fun _ => bind_congr fun black => if_congr .rfl (bind_congr fun retry => ?_) rfl
  refine if_congr .rfl (bind_congr fun x => ?_) rfl
  cases x.parent with
  | none => exact inr_next _ _
  | some q =>
    simp only [bind_assoc, inl_next]
    rfl

/-- `p` is not NULL behind the label `fixup`. -/
def startFixup (pleft : ℤ) : Ptr → M Unit
  | none => failure
  | some p => removeFixup (lacking pleft) p

/-- What follows once a black entry with the child `cld` is unlinked. -/
def removeBalance (cld : Ptr) (pleft : ℤ) (p : Ptr) : M Unit := do
  let red ← isRed cld
  let root ← loadRoot
  if red then setCol cld .black
  else if root = none then pure ()
  else if root = cld then setCol cld .black
  else startFixup pleft p

/-- `rb_remove_entry`. -/
def rbRemoveEntry (e : ℕ) : M ℕ := do
  swapPred e
  let (cld, pleft) ← unlink e
  let x ← load (some e)
  if x.col = .red then pure 1
  else do
    removeBalance cld pleft x.parent
    pure 1

/-- `rb_remove`. -/
def rbRemove (key : ℕ) : M ℕ := do
  let root ← loadRoot
  let e ← rbFind root key
  match e with
  | none => pure 0
  | some a => rbRemoveEntry a

end Anoubis.Apn.RbTree

import Anoubis.Apn.RbRemove
import Anoubis.Apn.RbSwap

/-! Removal, and runs of the tree operations.

    An entry with two children first changes places with its predecessor. Then it has at most one
    child and is unlinked; if it was black the colours are repaired. -/

namespace Anoubis.Apn.RbTree

open Anoubis.Lib Anoubis.Lib.RbTree

variable {key : ℕ → ℕ} {m : Mem} {t l r : RbTree ℕ} {fs : List (Frame ℕ)} {c : Color} {e k : ℕ}

/-! ### The predecessor -/

/-- The last entry of a tree, at the end of a path that goes right only. -/
theorem rightmost_run {fs : List (Frame ℕ)} {a : ℕ} (hz : Zip key t fs m) (ha : t.root = some a) :
    ∃ c l e gs, t = plug (.node c l e .nil) gs ∧ after gs = [] ∧ (rightmost a).run m = some (e, m) := by
  induction t generalizing fs a with
  | nil => cases ha
  | node c l b r _ ihr =>
    cases ha
    rw [rightmost_eq, run_bind (run_load m b), hz.entry]
    dsimp only
    cases r with
    | nil => exact ⟨c, l, b, [], rfl, rfl, rfl⟩
    | node c' l' b' r' =>
      obtain ⟨d, l₁, e, gs, ht, hafter, hrun⟩ := ihr (zip_far (s := .left) |>.mp hz) rfl
      refine ⟨d, l₁, e, gs ++ [⟨.right, c, b, l⟩], ?_, ?_, hrun⟩
      · rw [plug_append, ← ht]
        rfl
      · have happ : ∀ gs : List (Frame ℕ), after gs = [] → after (gs ++ [⟨.right, c, b, l⟩]) = [] := by
          intro gs
          induction gs with
          | nil => simp [after]
          | cons g gs ih =>
            obtain ⟨s, d, x, sib⟩ := g
            cases s <;> simp [after]
            exact ih
        exact happ gs hafter

variable {l₁ l₂ : List ℕ} {p : ℕ} {m' : Mem}

theorem erase_middle (h : e ∉ l₁) : (l₁ ++ e :: l₂).erase e = l₁ ++ l₂ := by
  rw [List.erase_append_right _ h, List.erase_cons_head]

/-- Two neighbours in a list change places. -/
theorem map_swap_next (hn : (l₁ ++ p :: e :: l₂).Nodup) :
    (l₁ ++ p :: e :: l₂).map (Equiv.swap e p) = l₁ ++ e :: p :: l₂ := by
  simp only [List.nodup_append, List.nodup_cons, List.mem_cons, not_or] at hn
  obtain ⟨-, ⟨⟨-, hp⟩, he, -⟩, hdis⟩ := hn
  have hfix : ∀ l : List ℕ, (∀ x ∈ l, x ≠ e ∧ x ≠ p) → l.map (Equiv.swap e p) = l := by
    intro l hl
    refine (List.map_congr_left fun x hx => ?_).trans (List.map_id l)
    exact Equiv.swap_apply_of_ne_of_ne (hl x hx).1 (hl x hx).2
  rw [List.map_append, List.map_cons, List.map_cons, Equiv.swap_apply_right, Equiv.swap_apply_left,
    hfix l₁, hfix l₂]
  · intro x hx
    exact ⟨fun h => he (h ▸ hx), fun h => hp (h ▸ hx)⟩
  · intro x hx
    exact ⟨hdis x hx e (.inr (.inl rfl)), hdis x hx p (.inl rfl)⟩

theorem erase_eq_of_swap {k₁ k₂ : List ℕ} (hn : (l₁ ++ p :: e :: l₂).Nodup)
    (h : k₁ ++ e :: k₂ = (l₁ ++ p :: e :: l₂).map (Equiv.swap e p)) : k₁ ++ k₂ = (l₁ ++ p :: e :: l₂).erase e := by
  have hn' : (k₁ ++ e :: k₂).Nodup := h ▸ hn.map (Equiv.swap e p).injective
  have hk : e ∉ k₁ := fun hm => (List.nodup_append.mp hn').2.2 e hm e List.mem_cons_self rfl
  have hl : e ∉ l₁ ++ [p] := by
    rw [List.append_cons] at hn
    exact fun hm => (List.nodup_append.mp hn).2.2 e hm e List.mem_cons_self rfl
  have hl₁ : e ∉ l₁ := fun hm => hl (List.mem_append_left _ hm)
  rw [map_swap_next hn] at h
  calc k₁ ++ k₂ = (k₁ ++ e :: k₂).erase e := (erase_middle hk).symm
    _ = (l₁ ++ e :: p :: l₂).erase e := by rw [h]
    _ = l₁ ++ p :: l₂ := erase_middle hl₁
    _ = (l₁ ++ p :: e :: l₂).erase e := by
      rw [List.append_cons l₁ p (e :: l₂), erase_middle hl, List.append_cons]

/-- The entry can be unlinked: it has at most one child, and the others are in order without it. -/
structure Ready (key : ℕ → ℕ) (t : RbTree ℕ) (e : ℕ) (m : Mem) (c : Color) (l r : RbTree ℕ)
    (fs : List (Frame ℕ)) : Prop where
  zip : Zip key (.node c l e r) fs m
  child : l = .nil ∨ r = .nil
  balanced : (plug (.node c l e r) fs).Balanced
  rest : before fs ++ (l.toList ++ r.toList) ++ after fs = t.toList.erase e

theorem swapPred_spec (he : e ∈ t.toList) (hb : t.Balanced) :
    Does (Zip key t []) (swapPred e) (fun _ m => ∃ c l r fs, Ready key t e m c l r fs) := by
  intro m hz
  have hn : t.toList.Nodup := by simpa [entries] using hz.nodup
  obtain ⟨c, l, r, fs, rfl⟩ := exists_plug he
  have hz' := zip_plug.mpr hz
  have hlist := toList_plug (RbTree.node c l e r) fs
  rw [swapPred, run_bind (run_load m e), hz'.entry]
  dsimp only
  cases hl : l.root with
  | none =>
    rw [root_eq_none] at hl
    subst hl
    refine ⟨(), m, rfl, c, .nil, r, fs, hz', .inl rfl, hb, ?_⟩
    rw [hlist] at hn ⊢
    simp only [toList, List.nil_append, List.append_assoc, List.cons_append] at hn ⊢
    rw [erase_middle]
    exact fun hm => (List.nodup_append.mp hn).2.2 e hm e List.mem_cons_self rfl
  | some a =>
    dsimp only
    obtain ⟨d, l', p, gs, rfl, hafter, hrun⟩ := rightmost_run (zip_near (s := .left) |>.mp hz') hl
    rw [run_bind hrun]
    have hpe : p ≠ e := by
      rintro rfl
      refine (Zip.apart (s := .left) hz').near ((perm_plug _ gs).mem_iff.mpr ?_)
      simp [toList]
    -- the entry and its predecessor are next to each other
    have hT : plug (.node c (plug (.node d l' p .nil) gs) e r) fs =
        plug (.node d l' p .nil) (gs ++ ⟨.left, c, e, r⟩ :: fs) := by
      rw [plug_append]
      rfl
    have hA : (plug (.node c (plug (.node d l' p .nil) gs) e r) fs).toList =
        (before fs ++ (before gs ++ l'.toList)) ++ p :: e :: (r.toList ++ after fs) := by
      rw [hlist]
      simp [toList, toList_plug, hafter]
    have hp : p ∈ (plug (.node c (plug (.node d l' p .nil) gs) e r) fs).toList := by
      rw [hA]
      simp
    obtain ⟨_, m', hrun', hz₁⟩ := rbSwap_spec he hp hpe.symm m hz
    have hmap : (plug (.node c (plug (.node d l' p .nil) gs) e r) fs).map (Equiv.swap e p) =
        plug (.node d (l'.map (Equiv.swap e p)) e .nil)
          ((gs ++ ⟨.left, c, e, r⟩ :: fs).map (Frame.map (Equiv.swap e p))) := by
      rw [hT, plug_map, RbTree.map, Equiv.swap_apply_right]
      rfl
    refine ⟨(), m', hrun', d, _, .nil, _, zip_plug.mpr (hmap ▸ hz₁), .inr rfl, ?_, ?_⟩
    · rw [← hmap, RbTree.Balanced, col_map]
      exact ⟨hb.1, hb.2.imp fun n hn => bal_map.mpr hn⟩
    · have hswap := toList_map (Equiv.swap e p) (plug (.node c (plug (.node d l' p .nil) gs) e r) fs)
      rw [hA, hmap, toList_plug] at hswap
      rw [hA] at hn ⊢
      simp only [toList, List.append_nil]
      refine erase_eq_of_swap hn (Eq.trans ?_ hswap)
      simp [toList]

/-! ### Unlinking -/

/-- `pleft`. -/
def pleft : List (Frame ℕ) → ℤ
  | [] => -1
  | ⟨.left, _, _, _⟩ :: _ => 1
  | ⟨.right, _, _, _⟩ :: _ => 0

theorem lacking_pleft (f : Frame ℕ) (fs : List (Frame ℕ)) : lacking (pleft (f :: fs)) = f.side := by
  obtain ⟨s, c, a, sib⟩ := f
  cases s <;> rfl

theorem unlinkFrom_run (hp : PathShape m (some e) fs) (he : e ∉ entries fs) (v : Ptr) :
    (unlinkFrom (above fs) (some e) v).run m = some (pleft fs, m.relink v fs) := by
  cases fs with
  | nil => rfl
  | cons f fs =>
    obtain ⟨s, c, a, sib⟩ := f
    obtain ⟨h1, h2, -⟩ := hp
    dsimp only [above, unlinkFrom, Mem.relink]
    rw [run_bind (run_load m a)]
    cases s with
    | left =>
      have hl : (m.heap a).left = some e := h1
      rw [if_pos hl, run_bind (run_setChild ..)]
      rfl
    | right =>
      have hne : (m.heap a).left ≠ some e := by
        intro hl
        have hroot : sib.root = some e := h2.symm.trans hl
        exact he (by simp [entries, mem_of_root hroot])
      rw [if_neg hne, run_bind (run_setChild ..)]
      rfl

/-- The only child of an entry, if there is one. -/
def onlyChild (l r : RbTree ℕ) : RbTree ℕ :=
  match l with
  | .nil => r
  | .node .. => l

theorem root_onlyChild : (if l.root.isSome then l.root else r.root) = (onlyChild l r).root := by
  cases l <;> rfl

theorem toList_onlyChild (h : l = .nil ∨ r = .nil) : (onlyChild l r).toList = l.toList ++ r.toList := by
  cases l with
  | nil => rfl
  | node c l₁ a l₂ =>
    obtain rfl : r = .nil := h.resolve_left (by simp)
    simp [onlyChild, toList]

/-- The child takes the place of the entry; the fields of the entry stay. -/
theorem unlink_run (hz : Zip key (.node c l e r) fs m) (hc : l = .nil ∨ r = .nil) :
    ∃ m', (unlink e).run m = some (((onlyChild l r).root, pleft fs), m') ∧
      Zip key (onlyChild l r) fs m' ∧ (m'.heap e).parent = above fs ∧ (m'.heap e).col = c := by
  have hA := Zip.apart (s := .left) hz
  obtain ⟨h1, h2, h3, h4, hl, hr⟩ := hz.shape
  have hd : Shape m.heap (some e) (onlyChild l r) ∧ (onlyChild l r).toList.Nodup ∧
      e ∉ (onlyChild l r).toList ∧ ∀ x ∈ (onlyChild l r).toList, x ∉ entries fs := by
    cases l with
    | nil => exact ⟨hr, hA.nodupFar, hA.far, hA.farPath⟩
    | node => exact ⟨hl, hA.nodupNear, hA.near, hA.nearPath⟩
  obtain ⟨hds, hdn, hde, hdp⟩ := hd
  -- the child has its new parent
  let m₁ := m.updP (onlyChild l r).root (fun x => x.setParent (above fs))
  have hother : ∀ x, x ∉ (onlyChild l r).toList → m₁.heap x = m.heap x := by
    intro x hx
    rw [heap_updP, if_neg (root_ne_of_notMem hx)]
  have hkeys : ∀ x, (m₁.heap x).key = key x := by
    intro x
    rw [heap_updP, ← hz.keys x]
    split <;> rfl
  have hpath : PathShape m₁ (some e) fs := by
    refine hz.path.congr (root_updP ..) fun x hx => hother x fun hm => hdp x hm hx
  have hshape : Shape m₁.heap (above fs) (onlyChild l r) :=
    hds.reparent hdn fun x hx => heap_updP ..
  have hnodup : ((onlyChild l r).toList ++ entries fs).Nodup :=
    List.nodup_append.mpr ⟨hdn, hA.nodupPath, fun x hx y hy hxy => hdp x hx (hxy ▸ hy)⟩
  have hkeep : (m₁.relink (onlyChild l r).root fs).heap e = m.heap e :=
    (heap_relink_of_notMem hA.path).trans (hother e hde)
  refine ⟨m₁.relink (onlyChild l r).root fs, ?_, Zip.relink hkeys hpath hshape hnodup, ?_, ?_⟩
  · rw [unlink, run_bind (run_load m e), h1, h2, h3]
    dsimp only
    rw [root_onlyChild, run_bind (run_adopt ..), run_bind (unlinkFrom_run hpath hA.path _)]
    rfl
  · rw [hkeep, h3]
  · rw [hkeep, h4]

/-! ### Removal -/

theorem bal_onlyChild (hl : l.Bal k) (hr : r.Bal k) : (onlyChild l r).Bal k := by
  cases l with
  | nil => exact hr
  | node => exact hl

theorem root_plug_ne_none (t : RbTree ℕ) (f : Frame ℕ) (fs : List (Frame ℕ)) : (plug t (f :: fs)).root ≠ none := by
  induction fs generalizing t f with
  | nil => simp [plug, Frame.plug]
  | cons g fs ih => exact ih (f.plug t) g

/-- A black entry was unlinked: its child has no black node, or there is none. -/
theorem removeBalance_spec (ht : t.Bal 0) (hf : Fits fs .black 1) :
    Does (Zip key t fs) (removeBalance t.root (pleft fs) (above fs)) (fun _ => Repaired key (plug t fs).toList) := by
  intro m hz
  rw [removeBalance, run_bind (isRed_run hz.shape), run_bind (run_loadRoot m)]
  cases hc : t.col with
  | red =>
    have hne : t ≠ .nil := by
      rintro rfl
      cases hc
    obtain ⟨d, n, a, f, rfl⟩ := exists_join .left hne
    rw [col_join] at hc
    subst hc
    simp only [decide_true, if_true, root_join]
    refine ⟨(), _, run_setCol .., ?_⟩
    have hsame : (plug (join .left .black n a f) fs).toList = (plug (join .left .red n a f) fs).toList := by
      rw [toList_plug, toList_plug]
      rfl
    rw [← hsame]
    exact (hz.setCol .black).repaired ht.blacken hf
  | black =>
    obtain rfl := ht.eq_nil hc
    simp only [reduceCtorEq, decide_false, Bool.false_eq_true, if_false]
    rw [hz.root]
    cases fs with
    | nil =>
      have hroot : (plug (.nil : RbTree ℕ) []).root = none := rfl
      rw [if_pos hroot]
      exact ⟨(), m, rfl, hz.repaired ht rfl⟩
    | cons g gs =>
      have hroot : (plug .nil (g :: gs)).root ≠ none := root_plug_ne_none _ g gs
      have hroot' : (plug .nil (g :: gs)).root ≠ RbTree.nil.root := hroot
      rw [if_neg hroot, if_neg hroot']
      obtain ⟨hgc, hgb, hgf⟩ := hf
      have hstart : startFixup (pleft (g :: gs)) (above (g :: gs)) = removeFixup g.side g.entry := by
        rw [above, startFixup, lacking_pleft]
      rw [hstart]
      exact removeFixup_spec gs ⟨ht, rfl, hgb, fun h => (hgc h).2⟩ hgf m (zip_frame.mp hz)

/-- `rb_remove_entry` on a red-black tree. -/
theorem rbRemoveEntry_run (hz : Zip key t [] m) (hb : t.Balanced) (he : e ∈ t.toList) :
    ∃ m', (rbRemoveEntry e).run m = some (1, m') ∧ Repaired key (t.toList.erase e) m' := by
  obtain ⟨_, m₁, hrun₁, c, l, r, fs, hready⟩ := swapPred_spec he hb m hz
  obtain ⟨m₂, hrun₂, hz₂, hpar, hcol⟩ := unlink_run hready.zip hready.child
  obtain ⟨k, hk, hf⟩ := balanced_plug.mp hready.balanced
  have hlist : (plug (onlyChild l r) fs).toList = t.toList.erase e := by
    rw [toList_plug, toList_onlyChild hready.child]
    exact hready.rest
  rw [rbRemoveEntry, run_bind hrun₁, run_bind hrun₂, run_bind (run_load m₂ e), hcol, hpar]
  rw [← hlist]
  cases c with
  | red =>
    obtain ⟨hlc, hrc, hl, hr⟩ := bal_red (s := .left) |>.mp hk
    have hblack : (onlyChild l r).col = .black := by
      cases l with
      | nil => exact hrc
      | node => exact hlc
    rw [if_pos rfl]
    exact ⟨m₂, rfl, hz₂.repaired (bal_onlyChild hl hr) (hblack ▸ hf.black)⟩
  | black =>
    obtain ⟨j, rfl, hl, hr⟩ := bal_black (s := .left) |>.mp hk
    -- one child is missing, so there are no black nodes below the entry
    have hj : j = 0 := by
      rcases hready.child with rfl | rfl
      · exact hl
      · exact hr
    subst hj
    obtain ⟨_, m₃, hrun₃, hrep⟩ := removeBalance_spec (bal_onlyChild hl hr) hf m₂ hz₂
    rw [if_neg (by simp), run_bind hrun₃]
    exact ⟨m₃, rfl, hrep⟩

/-! ### Runs -/

/-- The memory holds a red-black tree: children and parents as in `t`, no entry twice, keys in order,
    a black root, no red node with a red child, and the same number of black nodes on all paths. -/
structure IsTree (m : Mem) (t : RbTree ℕ) : Prop where
  shape : Shape m.heap none t
  root : m.root = t.root
  nodup : t.toList.Nodup
  sorted : Sorted (fun a => (m.heap a).key) t.toList
  rootBlack : t.col = .black
  noRedRed : t.NoRedRed
  blackHeight : ∃ n, t.BlackHeight n

/-- A call, or a write of the caller to an entry outside the tree. -/
inductive Op where
  | insert (n : ℕ)
  | removeEntry (e : ℕ)
  | remove (key : ℕ)
  | assign (n : ℕ) (x : Entry)

/-- The entry can be reached from the root. -/
inductive InTree (m : Mem) : ℕ → Prop
  | root {a : ℕ} : m.root = some a → InTree m a
  | child {a b : ℕ} (s : Side) : InTree m a → (m.heap a).child s = some b → InTree m b

/-- What the caller has to observe. -/
def Op.Legal (m : Mem) : Op → Prop
  | .insert _ => True
  | .removeEntry e => InTree m e
  | .remove _ => True
  | .assign n _ => ¬ InTree m n

def Op.exec : Op → M ℕ
  | .insert n => rbInsertEntry n
  | .removeEntry e => rbRemoveEntry e
  | .remove key => rbRemove key
  | .assign n x => do
    store (fun _ => x) (some n)
    pure 0

/-- The memory after some operations on an empty tree. -/
inductive Reachable : Mem → Prop
  | empty {m : Mem} : m.root = none → Reachable m
  | step {m m' : Mem} {r : ℕ} (op : Op) : Reachable m → op.Legal m → op.exec.run m = some (r, m') →
    Reachable m'

theorem IsTree.zip (h : IsTree m t) : Zip (fun a => (m.heap a).key) t [] m :=
  ⟨fun _ => rfl, h.shape, h.root, by simpa [entries] using h.nodup⟩

theorem IsTree.balanced (h : IsTree m t) : t.Balanced :=
  ⟨h.rootBlack, h.blackHeight.imp fun _ hn => bal_iff.mpr ⟨h.noRedRed, hn⟩⟩

theorem Zip.isTree (hz : Zip (fun a => (m.heap a).key) t [] m') (hb : t.Balanced)
    (hs : Sorted (fun a => (m.heap a).key) t.toList) : IsTree m' t := by
  obtain ⟨hc, n, hn⟩ := hb
  obtain ⟨hred, hn⟩ := bal_iff.mp hn
  refine ⟨hz.shape, hz.path, by simpa [entries] using hz.nodup, ?_, hc, hred, n, hn⟩
  exact (funext hz.keys : (fun a => (m'.heap a).key) = _) ▸ hs

/-- The entries that can be reached are those of the tree. -/
theorem inTree_iff (h : IsTree m t) (a : ℕ) : InTree m a ↔ a ∈ t.toList := by
  constructor
  · intro ha
    induction ha with
    | root hr => exact mem_of_root (h.root.symm.trans hr)
    | child s _ hc ih => exact (h.zip.links.up _ ih s _ hc).1
  · intro ha
    have hgo : ∀ (fs : List (Frame ℕ)) (u : RbTree ℕ) (b : ℕ), Zip (fun a => (m.heap a).key) u fs m →
        u.root = some b → InTree m b := by
      intro fs
      induction fs with
      | nil =>
        intro u b hz hb
        exact .root (hz.path.trans hb)
      | cons f fs ih =>
        intro u b hz hb
        exact .child f.side (ih _ f.entry (zip_frame.mp hz) (root_join ..)) (hz.path.1.trans hb)
    obtain ⟨c, l, r, fs, rfl⟩ := exists_plug ha
    exact hgo fs _ a (zip_plug.mpr h.zip) rfl

/-- The effect of `rb_insert_entry`: the entry is added iff its key is new. -/
def InsertOk (m : Mem) (t : RbTree ℕ) (n : ℕ) : Prop :=
  ((∃ x ∈ t.toList, (m.heap x).key = (m.heap n).key) ∧ (rbInsertEntry n).run m = some (0, m)) ∨
  ((∀ x ∈ t.toList, (m.heap x).key ≠ (m.heap n).key) ∧ ∃ m' t', (rbInsertEntry n).run m = some (1, m') ∧
    IsTree m' t' ∧ (∀ a, (m'.heap a).key = (m.heap a).key) ∧ ∀ a, a ∈ t'.toList ↔ a = n ∨ a ∈ t.toList)

/-- The effect of a removal: exactly this entry is gone. -/
def RemoveOk (m : Mem) (t : RbTree ℕ) (e : ℕ) (r : Option (ℕ × Mem)) : Prop :=
  ∃ m' t', r = some (1, m') ∧ IsTree m' t' ∧ (∀ a, (m'.heap a).key = (m.heap a).key) ∧
    ∀ a, a ∈ t'.toList ↔ a ≠ e ∧ a ∈ t.toList

theorem insertOk (h : IsTree m t) (n : ℕ) : InsertOk m t n := by
  rcases rbInsertEntry_run (e := n) h.zip h.sorted h.balanced with ⟨hx, hrun⟩ | ⟨hx, m', t', hrun, hz, hb, hs, hp⟩
  · exact .inl ⟨hx, hrun⟩
  · refine .inr ⟨hx, m', t', hrun, hz.isTree hb hs, hz.keys, fun a => ?_⟩
    rw [hp.mem_iff, List.mem_cons]

theorem removeOk (h : IsTree m t) (he : e ∈ t.toList) : RemoveOk m t e ((rbRemoveEntry e).run m) := by
  obtain ⟨m', hrun, t', hz, hb, hl⟩ := rbRemoveEntry_run h.zip h.balanced he
  refine ⟨m', t', hrun, hz.isTree hb ?_, hz.keys, fun a => ?_⟩
  · rw [hl]
    exact List.Pairwise.sublist List.erase_sublist h.sorted
  · rw [hl, h.nodup.mem_erase_iff]

theorem find_ok (h : IsTree m t) (k : ℕ) : ∃ p, (rbFind m.root k).run m = some (p, m) ∧
    ∀ a, p = some a ↔ a ∈ t.toList ∧ (m.heap a).key = k := by
  rw [h.root]
  exact rbFind_run h.zip h.sorted

theorem rbRemove_run {p : Ptr} (hrun : (rbFind m.root k).run m = some (p, m)) :
    (rbRemove k).run m = match p with
      | none => some (0, m)
      | some a => (rbRemoveEntry a).run m := by
  rw [rbRemove, run_bind (run_loadRoot m), run_bind hrun]
  cases p <;> rfl

/-- Every operation takes a tree to a tree. -/
theorem step_isTree {r : ℕ} {op : Op} (h : IsTree m t) (hl : op.Legal m) (hrun : op.exec.run m = some (r, m')) :
    ∃ t', IsTree m' t' := by
  cases op with
  | insert n =>
    have hrun : (rbInsertEntry n).run m = some (r, m') := hrun
    rcases insertOk h n with ⟨-, hr⟩ | ⟨-, m₁, t₁, hr, h₁, -⟩
    · rw [hr] at hrun
      cases hrun
      exact ⟨t, h⟩
    · rw [hr] at hrun
      cases hrun
      exact ⟨t₁, h₁⟩
  | removeEntry e =>
    have hrun : (rbRemoveEntry e).run m = some (r, m') := hrun
    obtain ⟨m₁, t₁, hr, h₁, -⟩ := removeOk h ((inTree_iff h e).mp hl)
    rw [hr] at hrun
    cases hrun
    exact ⟨t₁, h₁⟩
  | remove k =>
    have hrun : (rbRemove k).run m = some (r, m') := hrun
    obtain ⟨p, hfind, hp⟩ := find_ok h k
    rw [rbRemove_run hfind] at hrun
    cases p with
    | none =>
      cases hrun
      exact ⟨t, h⟩
    | some a =>
      obtain ⟨m₁, t₁, hr, h₁, -⟩ := removeOk h ((hp a).mp rfl).1
      replace hrun : (rbRemoveEntry a).run m = some (r, m') := hrun
      rw [hr] at hrun
      cases hrun
      exact ⟨t₁, h₁⟩
  | assign n x =>
    have hn : n ∉ t.toList := fun hm => hl ((inTree_iff h n).mpr hm)
    have hrun : some (0, m.upd n (fun _ => x)) = some (r, m') := hrun
    cases hrun
    have hother : ∀ a ∈ t.toList, (m.upd n (fun _ => x)).heap a = m.heap a := by
      intro a ha
      have hne : a ≠ n := fun he => hn (he ▸ ha)
      rw [heap_upd, if_neg hne]
    refine ⟨t, h.shape.congr hother, h.root, h.nodup, ?_, h.rootBlack, h.noRedRed, h.blackHeight⟩
    refine h.sorted.imp_of_mem fun {a b} ha hb hlt => ?_
    dsimp only at hlt ⊢
    rw [hother a ha, hother b hb]
    exact hlt

theorem reachable_isTree (h : Reachable m) : ∃ t, IsTree m t := by
  induction h with
  | empty hr =>
    exact ⟨.nil, trivial, hr, List.nodup_nil, List.Pairwise.nil, rfl, trivial, 0, rfl⟩
  | step op _ hl hrun ih =>
    obtain ⟨t, ht⟩ := ih
    exact step_isTree ht hl hrun

/-- Every memory that operations on an empty tree lead to holds a red-black tree with the entries that
    can be reached from the root, and the next operation ends: an insertion adds the entry iff its key
    is new, a removal removes exactly the given entry, and a search finds the entry with the key. -/
theorem rbtree_refines (h : Reachable m) : ∃ t, IsTree m t ∧ (∀ a, InTree m a ↔ a ∈ t.toList) ∧
    (∀ n, InsertOk m t n) ∧ (∀ e, InTree m e → RemoveOk m t e ((rbRemoveEntry e).run m)) ∧
    (∀ k, ∃ p, (rbFind m.root k).run m = some (p, m) ∧
      (∀ a, p = some a ↔ a ∈ t.toList ∧ (m.heap a).key = k) ∧
      (p = none → (rbRemove k).run m = some (0, m)) ∧
      ∀ a, p = some a → RemoveOk m t a ((rbRemove k).run m)) := by
  obtain ⟨t, ht⟩ := reachable_isTree h
  refine ⟨t, ht, inTree_iff ht, insertOk ht, fun e he => removeOk ht ((inTree_iff ht e).mp he), fun k => ?_⟩
  obtain ⟨p, hfind, hp⟩ := find_ok ht k
  have hremove := rbRemove_run hfind
  refine ⟨p, hfind, hp, ?_, ?_⟩
  · rintro rfl
    exact hremove
  · rintro a rfl
    rw [hremove]
    exact removeOk ht ((hp a).mp rfl).1

/-- An empty tree, and memory full of entries with different keys. -/
def emptyMem : Mem := ⟨none, fun a => ⟨a, none, none, none, .red⟩⟩

theorem rbtree_refines_insert : ∃ m', (rbInsertEntry 7).run emptyMem = some (1, m') ∧
    ∃ t, IsTree m' t ∧ ∀ e, InTree m' e → RemoveOk m' t e ((rbRemoveEntry e).run m') := by
  have hempty : Reachable emptyMem := .empty rfl
  obtain ⟨t, ht, -, hins, -⟩ := rbtree_refines hempty
  obtain rfl : t = .nil := root_eq_none.mp ht.root.symm
  rcases hins 7 with ⟨⟨x, hx, -⟩, -⟩ | ⟨-, m', -, hrun, -⟩
  · cases hx
  · obtain ⟨t', ht', -, -, hrem, -⟩ := rbtree_refines (hempty.step (.insert 7) trivial hrun)
    exact ⟨m', hrun, t', ht', hrem⟩

end Anoubis.Apn.RbTree

import Anoubis.Apn.RbTree

/-! Memory that holds a tree.

    `Zip key t fs m` says that the memory `m` holds the tree `t` at the end of the path `fs`: children,
    parents, colours and the root pointer are those of `plug t fs`, no entry occurs twice, and the keys
    are given by `key`. The position in the tree can be changed without changing the memory
    (`zip_frame`), so that a change is described where it happens. -/

namespace Anoubis.Apn.RbTree

open Anoubis.Lib Anoubis.Lib.RbTree List

/-! ### Updates -/

/-- `if (p) *p = …`. -/
def Mem.updP (m : Mem) (p : Ptr) (f : Entry → Entry) : Mem :=
  match p with
  | none => m
  | some a => m.upd a f

theorem heap_upd (m : Mem) (a : ℕ) (f : Entry → Entry) (b : ℕ) :
    (m.upd a f).heap b = if b = a then f (m.heap b) else m.heap b := by
  by_cases hb : b = a
  · subst hb
    simp [Mem.upd]
  · simp [Mem.upd, hb]

theorem heap_updP (m : Mem) (p : Ptr) (f : Entry → Entry) (b : ℕ) :
    (m.updP p f).heap b = if p = some b then f (m.heap b) else m.heap b := by
  cases p with
  | none => rfl
  | some a =>
    rw [Mem.updP, heap_upd]
    exact if_congr ⟨fun h => h ▸ rfl, fun h => (Option.some.inj h).symm⟩ rfl rfl

@[simp] theorem root_upd (m : Mem) (a : ℕ) (f : Entry → Entry) : (m.upd a f).root = m.root := rfl

@[simp] theorem root_updP (m : Mem) (p : Ptr) (f : Entry → Entry) : (m.updP p f).root = m.root := by
  cases p <;> rfl

@[simp] theorem child_setChild (e : Entry) (v : Ptr) (s : Side) : (e.setChild v s).child s = v := by
  cases s <;> rfl

@[simp] theorem child_setChild_other (e : Entry) (v : Ptr) (s : Side) :
    (e.setChild v s).child s.other = e.child s.other := by cases s <;> rfl

@[simp] theorem child_other_setChild (e : Entry) (v : Ptr) (s : Side) :
    (e.setChild v s.other).child s = e.child s := by cases s <;> rfl

@[simp] theorem key_setChild (e : Entry) (v : Ptr) (s : Side) : (e.setChild v s).key = e.key := by
  cases s <;> rfl

@[simp] theorem col_setChild (e : Entry) (v : Ptr) (s : Side) : (e.setChild v s).col = e.col := by
  cases s <;> rfl

@[simp] theorem parent_setChild (e : Entry) (v : Ptr) (s : Side) :
    (e.setChild v s).parent = e.parent := by cases s <;> rfl

@[simp] theorem child_setParent (e : Entry) (v : Ptr) (s : Side) :
    (e.setParent v).child s = e.child s := by cases s <;> rfl

@[simp] theorem setParent_setParent (e : Entry) (v w : Ptr) : (e.setParent v).setParent w = e.setParent w := rfl

@[simp] theorem key_setParent (e : Entry) (v : Ptr) : (e.setParent v).key = e.key := rfl

@[simp] theorem left_setParent (e : Entry) (v : Ptr) : (e.setParent v).left = e.left := rfl

@[simp] theorem right_setParent (e : Entry) (v : Ptr) : (e.setParent v).right = e.right := rfl

@[simp] theorem parent_setParent (e : Entry) (v : Ptr) : (e.setParent v).parent = v := rfl

@[simp] theorem col_setParent (e : Entry) (v : Ptr) : (e.setParent v).col = e.col := rfl

@[simp] theorem child_setCol (e : Entry) (c : Color) (s : Side) :
    (e.setCol c).child s = e.child s := by cases s <;> rfl

@[simp] theorem key_setCol (e : Entry) (c : Color) : (e.setCol c).key = e.key := rfl

@[simp] theorem left_setCol (e : Entry) (c : Color) : (e.setCol c).left = e.left := rfl

@[simp] theorem right_setCol (e : Entry) (c : Color) : (e.setCol c).right = e.right := rfl

@[simp] theorem parent_setCol (e : Entry) (c : Color) : (e.setCol c).parent = e.parent := rfl

@[simp] theorem col_setCol (e : Entry) (c : Color) : (e.setCol c).col = c := rfl

theorem run_load (m : Mem) (a : ℕ) : (load (some a)).run m = some (m.heap a, m) := rfl

theorem run_loadRoot (m : Mem) : loadRoot.run m = some (m.root, m) := rfl

theorem run_setChild (m : Mem) (s : Side) (a : ℕ) (v : Ptr) :
    (setChild s (some a) v).run m = some ((), m.upd a (fun e => e.setChild v s)) := rfl

theorem run_setParent (m : Mem) (a : ℕ) (v : Ptr) :
    (setParent (some a) v).run m = some ((), m.upd a (fun e => e.setParent v)) := rfl

theorem run_setCol (m : Mem) (a : ℕ) (c : Color) :
    (setCol (some a) c).run m = some ((), m.upd a (fun e => e.setCol c)) := rfl

theorem run_adopt (m : Mem) (p v : Ptr) : (adopt p v).run m = some ((), m.updP p (fun e => e.setParent v)) := by
  cases p <;> rfl

/-! ### Trees in memory -/

/-- The tree is in memory; `par` is the parent of its root. -/
def Shape (h : ℕ → Entry) : Ptr → RbTree ℕ → Prop
  | _, .nil => True
  | par, .node c l a r => (h a).left = l.root ∧ (h a).right = r.root ∧ (h a).parent = par ∧
      (h a).col = c ∧ Shape h (some a) l ∧ Shape h (some a) r

/-- The path is in memory; `top` is what its innermost entry points to. -/
def PathShape (m : Mem) : Ptr → List (Frame ℕ) → Prop
  | top, [] => m.root = top
  | top, f :: fs => (m.heap f.entry).child f.side = top ∧ (m.heap f.entry).child f.side.other = f.sib.root ∧
      (m.heap f.entry).parent = above fs ∧ (m.heap f.entry).col = f.col ∧
      Shape m.heap (some f.entry) f.sib ∧ PathShape m (some f.entry) fs

/-- The memory holds the tree `t` at the end of the path `fs`. -/
structure Zip (key : ℕ → ℕ) (t : RbTree ℕ) (fs : List (Frame ℕ)) (m : Mem) : Prop where
  keys : ∀ a, (m.heap a).key = key a
  shape : Shape m.heap (above fs) t
  path : PathShape m t.root fs
  nodup : (t.toList ++ entries fs).Nodup

variable {key : ℕ → ℕ} {h h' : ℕ → Entry} {m m' : Mem} {t : RbTree ℕ} {fs : List (Frame ℕ)}
  {par par' : Ptr} {s : Side} {c : Color} {n f : RbTree ℕ} {a : ℕ}

theorem shape_join : Shape h par (join s c n a f) ↔ (h a).child s = n.root ∧
    (h a).child s.other = f.root ∧ (h a).parent = par ∧ (h a).col = c ∧ Shape h (some a) n ∧ Shape h (some a) f := by
  cases s with
  | left => rfl
  | right =>
    simp only [join, Shape, Side.other, Entry.child]
    tauto

theorem Shape.congr (hs : Shape h par t) (hh : ∀ a ∈ t.toList, h' a = h a) : Shape h' par t := by
  induction t generalizing par with
  | nil => trivial
  | node c l a r ihl ihr =>
    obtain ⟨h1, h2, h3, h4, hl, hr⟩ := hs
    have ha : h' a = h a := hh a (by simp [toList])
    simp only [Shape, ha]
    refine ⟨h1, h2, h3, h4, ihl hl fun b hb => hh b ?_, ihr hr fun b hb => hh b ?_⟩
    · simp [toList, hb]
    · simp [toList, hb]

/-- The root of the tree gets a new parent. -/
theorem Shape.reparent (hs : Shape h par t) (hn : t.toList.Nodup)
    (hh : ∀ a ∈ t.toList, h' a = if t.root = some a then (h a).setParent par' else h a) : Shape h' par' t := by
  cases t with
  | nil => trivial
  | node c l a r =>
    obtain ⟨h1, h2, h3, h4, hl, hr⟩ := hs
    have ha : h' a = (h a).setParent par' := by
      rw [hh a (by simp [toList])]
      exact if_pos rfl
    have hne : ∀ b, b ≠ a → b ∈ (RbTree.node c l a r).toList → h' b = h b := by
      intro b hb hm
      rw [hh b hm, if_neg]
      exact fun he => hb (Option.some.inj he).symm
    have hdis : ∀ b, b ∈ l.toList ∨ b ∈ r.toList → b ≠ a := by
      rintro b hb rfl
      simp only [toList, nodup_middle, nodup_cons, mem_append] at hn
      exact hn.1 hb
    simp only [Shape, ha]
    refine ⟨h1, h2, rfl, h4, hl.congr fun b hb => ?_, hr.congr fun b hb => ?_⟩
    · exact hne b (hdis b (.inl hb)) (by simp [toList, hb])
    · exact hne b (hdis b (.inr hb)) (by simp [toList, hb])

variable {top : Ptr} {e r : ℕ} {d : Color}

theorem PathShape.congr (hp : PathShape m top fs) (hr : m'.root = m.root)
    (hh : ∀ a ∈ entries fs, m'.heap a = m.heap a) : PathShape m' top fs := by
  induction fs generalizing top with
  | nil => exact hr.trans hp
  | cons f fs ih =>
    obtain ⟨h1, h2, h3, h4, hs, hp⟩ := hp
    have ha : m'.heap f.entry = m.heap f.entry := hh f.entry (by simp [entries])
    simp only [PathShape, ha]
    refine ⟨h1, h2, h3, h4, hs.congr fun b hb => hh b ?_, ih hp fun b hb => hh b ?_⟩
    · simp [entries, hb]
    · simp [entries, hb]

/-- The end of the path gets a new child. -/
def Mem.relink (m : Mem) (top : Ptr) : List (Frame ℕ) → Mem
  | [] => { m with root := top }
  | f :: _ => m.upd f.entry (fun e => e.setChild top f.side)

theorem heap_relink_of_notMem (ha : a ∉ entries fs) : (m.relink top fs).heap a = m.heap a := by
  cases fs with
  | nil => rfl
  | cons f fs =>
    rw [Mem.relink, heap_upd, if_neg]
    rintro rfl
    simp [entries] at ha

theorem key_relink (top : Ptr) (fs : List (Frame ℕ)) (a : ℕ) : ((m.relink top fs).heap a).key = (m.heap a).key := by
  cases fs with
  | nil => rfl
  | cons f fs =>
    rw [Mem.relink, heap_upd]
    split <;> simp

theorem PathShape.relink (hp : PathShape m top fs) (hn : (entries fs).Nodup) (top' : Ptr) :
    PathShape (m.relink top' fs) top' fs := by
  cases fs with
  | nil => rfl
  | cons f fs =>
    obtain ⟨h1, h2, h3, h4, hs, hp⟩ := hp
    have hself : (m.relink top' (f :: fs)).heap f.entry = (m.heap f.entry).setChild top' f.side := by
      rw [Mem.relink, heap_upd, if_pos rfl]
    have hother : ∀ b ∈ f.sib.toList ++ entries fs, (m.relink top' (f :: fs)).heap b = m.heap b := by
      intro b hb
      rw [Mem.relink, heap_upd, if_neg]
      rintro rfl
      exact (nodup_cons.mp hn).1 hb
    simp only [PathShape, hself]
    refine ⟨by simp, by simpa using h2, by simpa using h3, by simpa using h4, hs.congr fun b hb => ?_,
      hp.congr rfl fun b hb => ?_⟩
    · exact hother b (mem_append_left _ hb)
    · exact hother b (mem_append_right _ hb)

/-! ### Moving in the tree -/

theorem perm_frame (f : Frame ℕ) (t : RbTree ℕ) (fs : List (Frame ℕ)) :
    (t.toList ++ entries (f :: fs)).Perm ((f.plug t).toList ++ entries fs) := by
  have h : (t.toList ++ f.entry :: f.sib.toList).Perm (f.plug t).toList := by
    simpa [entries, plug] using (perm_plug t [f]).symm
  rw [entries, ← append_assoc]
  exact h.append_right _

theorem zip_frame {f : Frame ℕ} : Zip key t (f :: fs) m ↔ Zip key (f.plug t) fs m := by
  have hroot : (f.plug t).root = some f.entry := root_join ..
  constructor
  · rintro ⟨hk, hs, ⟨h1, h2, h3, h4, hsib, hp⟩, hn⟩
    refine ⟨hk, shape_join.mpr ⟨h1, h2, h3, h4, hs, hsib⟩, ?_, (perm_frame f t fs).nodup_iff.mp hn⟩
    rw [hroot]
    exact hp
  · rintro ⟨hk, hs, hp, hn⟩
    obtain ⟨h1, h2, h3, h4, hs, hsib⟩ := shape_join.mp hs
    rw [hroot] at hp
    exact ⟨hk, hs, ⟨h1, h2, h3, h4, hsib, hp⟩, (perm_frame f t fs).nodup_iff.mpr hn⟩

/-- Down to the child on side `s`, and back. -/
theorem zip_near : Zip key (join s c n a f) fs m ↔ Zip key n (⟨s, c, a, f⟩ :: fs) m :=
  (zip_frame (f := ⟨s, c, a, f⟩)).symm

/-- Down to the child on the other side, and back. -/
theorem zip_far : Zip key (join s c n a f) fs m ↔ Zip key f (⟨s.other, c, a, n⟩ :: fs) m := by
  rw [← join_other]
  exact zip_near

/-- The whole tree, seen from the root. -/
theorem zip_plug : Zip key t fs m ↔ Zip key (plug t fs) [] m := by
  induction fs generalizing t with
  | nil => rfl
  | cons f fs ih => rw [zip_frame, ih, plug]

/-! ### Changes at one node -/

/-- The entry at a node, its subtrees and its path have nothing in common. -/
structure Apart (n : RbTree ℕ) (a : ℕ) (f : RbTree ℕ) (fs : List (Frame ℕ)) : Prop where
  near : a ∉ n.toList
  far : a ∉ f.toList
  path : a ∉ entries fs
  nearFar : ∀ x ∈ n.toList, x ∉ f.toList
  nearPath : ∀ x ∈ n.toList, x ∉ entries fs
  farPath : ∀ x ∈ f.toList, x ∉ entries fs
  nodupNear : n.toList.Nodup
  nodupFar : f.toList.Nodup
  nodupPath : (entries fs).Nodup

theorem apart_of_nodup (hn : ((join s c n a f).toList ++ entries fs).Nodup) : Apart n a f fs := by
  have hp : ((join s c n a f).toList ++ entries fs).Perm (a :: (n.toList ++ f.toList ++ entries fs)) := by
    have hj : (join s c n a f).toList.Perm (a :: (n.toList ++ f.toList)) := by
      cases s with
      | left => exact perm_middle
      | right => exact perm_middle.trans (perm_append_comm.cons a)
    exact hj.append_right _
  have h := hp.nodup_iff.mp hn
  simp only [nodup_cons, nodup_append, mem_append, not_or] at h
  obtain ⟨⟨⟨h1, h2⟩, h3⟩, ⟨h4, h5, h6⟩, h7, h8⟩ := h
  exact ⟨h1, h2, h3, fun x hx hy => h6 x hx x hy rfl, fun x hx hy => h8 x (.inl hx) x hy rfl,
    fun x hx hy => h8 x (.inr hx) x hy rfl, h4, h5, h7⟩

theorem Zip.apart (hz : Zip key (join s c n a f) fs m) : Apart n a f fs := apart_of_nodup hz.nodup

/-- Paint the root of the subtree. -/
theorem Zip.setCol (hz : Zip key (join s c n a f) fs m) (c' : Color) :
    Zip key (join s c' n a f) fs (m.upd a (fun e => e.setCol c')) := by
  obtain ⟨h1, h2, h3, -, hn, hf⟩ := shape_join.mp hz.shape
  have hself : (m.upd a (fun e => e.setCol c')).heap a = (m.heap a).setCol c' := by
    rw [heap_upd, if_pos rfl]
  have hother : ∀ {l : List ℕ}, a ∉ l →
      ∀ b ∈ l, (m.upd a (fun e => e.setCol c')).heap b = m.heap b := by
    intro l ha b hb
    have hne : b ≠ a := fun he => ha (he ▸ hb)
    rw [heap_upd, if_neg hne]
  refine ⟨fun b => ?_, shape_join.mpr ?_, ?_, ?_⟩
  · rw [heap_upd, ← hz.keys b]
    split <;> rfl
  · rw [hself]
    exact ⟨by simpa using h1, by simpa using h2, h3, rfl, hn.congr (hother hz.apart.near),
      hf.congr (hother hz.apart.far)⟩
  · have hp := hz.path
    rw [root_join] at hp ⊢
    exact hp.congr rfl (hother hz.apart.path)
  · rw [toList_join_col s c' c]
    exact hz.nodup

/-- Painting a node in its own colour changes nothing. -/
theorem upd_col_self (hc : (m.heap a).col = c) : m.upd a (fun e => e.setCol c) = m := by
  obtain ⟨root, heap⟩ := m
  simp only [Mem.upd, Mem.mk.injEq, true_and]
  subst hc
  exact Function.update_eq_self a heap

/-- Replace the subtree at the end of the path by another one that is already in memory. -/
theorem Zip.relink (hk : ∀ a, (m.heap a).key = key a) (hp : PathShape m top fs) (hs : Shape m.heap (above fs) t)
    (hn : (t.toList ++ entries fs).Nodup) : Zip key t fs (m.relink t.root fs) := by
  obtain ⟨-, hnf, hdis⟩ := nodup_append.mp hn
  refine ⟨fun a => (key_relink _ fs a).trans (hk a), hs.congr fun a ha => ?_, hp.relink hnf _, hn⟩
  exact heap_relink_of_notMem fun hm => hdis a ha a hm rfl

theorem replaceChild_run (hp : PathShape m (some e) fs) (he : e ∉ entries fs) (r : Ptr) :
    (replaceChild (above fs) (some e) r).run m = some ((), m.relink r fs) := by
  cases fs with
  | nil => rfl
  | cons f fs =>
    obtain ⟨s, c, a, sib⟩ := f
    obtain ⟨h1, h2, -⟩ := hp
    dsimp only [above, replaceChild, Mem.relink]
    rw [run_bind (run_load m a)]
    cases s with
    | left =>
      have hl : (m.heap a).left = some e := h1
      rw [if_pos hl, run_setChild]
    | right =>
      have hne : (m.heap a).left ≠ some e := by
        intro hl
        refine he ?_
        have hroot : sib.root = some e := h2.symm.trans hl
        simp [entries, mem_of_root hroot]
      rw [if_neg hne, run_setChild]

/-! ### Rotations -/

/-- The pointers of a rotation, up to the one in the parent. -/
def Mem.rotated (m : Mem) (s : Side) (e r : ℕ) (l rl rr p : Ptr) : Mem :=
  m.upd e (fun x => x.setChild l s)
    |>.upd e (fun x => x.setChild rl s.other)
    |>.updP l (fun x => x.setParent (some e))
    |>.updP rl (fun x => x.setParent (some e))
    |>.upd r (fun x => x.setChild (some e) s)
    |>.upd r (fun x => x.setChild rr s.other)
    |>.upd e (fun x => x.setParent (some r))
    |>.updP rr (fun x => x.setParent (some r))
    |>.upd r (fun x => x.setParent p)

variable {p : Ptr} {x b : ℕ} {l rl rr n' f' : RbTree ℕ} {s' : Side} {c' : Color}

theorem rotate_run {l rl rr : Ptr} (hp : (m.heap e).parent = p) (hl : (m.heap e).child s = l)
    (hr : (m.heap e).child s.other = some r) (hrl : (m.heap r).child s = rl) (hrr : (m.heap r).child s.other = rr) :
    (rotate s (some e)).run m = (replaceChild p (some e) (some r)).run (m.rotated s e r l rl rr p) := by
  rw [rotate, run_bind (run_load m e)]
  simp only [hp, hl, hr]
  rw [run_bind (run_load m r)]
  simp only [hrl, hrr]
  rw [run_bind (run_setChild ..), run_bind (run_setChild ..), run_bind (run_adopt ..),
    run_bind (run_adopt ..), run_bind (run_setChild ..), run_bind (run_setChild ..),
    run_bind (run_setParent ..), run_bind (run_adopt ..), run_bind (run_setParent ..)]
  rfl

/-- The entries around the rotation: the roots of the three subtrees get a parent. -/
theorem heap_rotated {l rl rr : Ptr} (hxe : x ≠ e) (hxr : x ≠ r) :
    (m.rotated s e r l rl rr p).heap x =
      if rr = some x then (m.heap x).setParent (some r)
      else if rl = some x ∨ l = some x then (m.heap x).setParent (some e)
      else m.heap x := by
  simp only [Mem.rotated, heap_upd, heap_updP, hxe, hxr, if_false]
  by_cases h1 : rr = some x <;> by_cases h2 : rl = some x <;> by_cases h3 : l = some x <;>
    simp [h1, h2, h3]

theorem root_ne_of_notMem (hx : x ∉ t.toList) : t.root ≠ some x :=
  fun h => hx (mem_of_root h)

/-- What a rotation does to the memory, before the parent is linked. -/
theorem rotated_zip (hz : Zip key (join s c l e (join s d rl r rr)) fs m) :
    (∀ a, ((m.rotated s e r l.root rl.root rr.root (above fs)).heap a).key = key a) ∧
    PathShape (m.rotated s e r l.root rl.root rr.root (above fs)) (some e) fs ∧
    Shape (m.rotated s e r l.root rl.root rr.root (above fs)).heap (above fs) (join s d (join s c l e rl) r rr) := by
  have hA := hz.apart
  have hB := (zip_far.mp hz).apart
  obtain ⟨e1, e2, e3, e4, hl, hr⟩ := shape_join.mp hz.shape
  obtain ⟨r1, r2, r3, r4, hrl, hrr⟩ := shape_join.mp hr
  obtain ⟨her, herl, herr⟩ : e ≠ r ∧ e ∉ rl.toList ∧ e ∉ rr.toList := by
    simpa [mem_join, not_or] using hA.far
  obtain ⟨hre, hrl', hrfs⟩ : r ≠ e ∧ r ∉ l.toList ∧ r ∉ entries fs := by
    simpa [entries, not_or] using hB.path
  have hsub : ∀ x, x ∈ rl.toList ∨ x ∈ rr.toList → x ≠ e ∧ x ∉ l.toList ∧ x ∉ entries fs := by
    intro x hx
    have h := hx.elim (hB.nearPath x) (hB.farPath x)
    simpa [entries, not_or] using h
  refine ⟨?_, ?_, ?_⟩
  · intro x
    rw [← hz.keys x]
    simp only [Mem.rotated, heap_upd, heap_updP]
    split_ifs <;> simp
  · have hp := hz.path
    rw [root_join] at hp
    refine hp.congr (by simp [Mem.rotated]) fun x hx => ?_
    have hxe : x ≠ e := fun he => hA.path (he ▸ hx)
    have hxr : x ≠ r := fun he => hrfs (he ▸ hx)
    rw [heap_rotated hxe hxr, if_neg, if_neg]
    · rintro (h | h)
      · exact (hsub x (.inl (mem_of_root h))).2.2 hx
      · exact hA.nearPath x (mem_of_root h) hx
    · exact fun h => (hsub x (.inr (mem_of_root h))).2.2 hx
  · have hE : (m.rotated s e r l.root rl.root rr.root (above fs)).heap e =
        (((m.heap e).setChild l.root s).setChild rl.root s.other).setParent (some r) := by
      simp [Mem.rotated, heap_upd, heap_updP, her, root_ne_of_notMem hA.near, root_ne_of_notMem herl,
        root_ne_of_notMem herr]
    have hR : (m.rotated s e r l.root rl.root rr.root (above fs)).heap r =
        (((m.heap r).setChild (some e) s).setChild rr.root s.other).setParent (above fs) := by
      simp [Mem.rotated, heap_upd, heap_updP, hre, root_ne_of_notMem hrl', root_ne_of_notMem hB.near,
        root_ne_of_notMem hB.far]
    refine shape_join.mpr ⟨?_, ?_, ?_, ?_, shape_join.mpr ⟨?_, ?_, ?_, ?_, ?_, ?_⟩, ?_⟩
    · simp [hR]
    · simp [hR]
    · simp [hR]
    · simp [hR, r4]
    · simp [hE]
    · simp [hE]
    · simp [hE]
    · simp [hE, e4]
    · refine hl.reparent hA.nodupNear fun x hx => ?_
      have hne : x ∉ rl.toList ∧ x ∉ rr.toList :=
        ⟨fun h => (hsub x (.inl h)).2.1 hx, fun h => (hsub x (.inr h)).2.1 hx⟩
      have hxe : x ≠ e := fun he => hA.near (he ▸ hx)
      have hxr : x ≠ r := fun he => hrl' (he ▸ hx)
      simp [heap_rotated hxe hxr, root_ne_of_notMem hne.1, root_ne_of_notMem hne.2]
    · refine hrl.reparent hB.nodupNear fun x hx => ?_
      obtain ⟨hxe, hxl, -⟩ := hsub x (.inl hx)
      have hxr : x ≠ r := fun he => hB.near (he ▸ hx)
      simp [heap_rotated hxe hxr, root_ne_of_notMem hxl, root_ne_of_notMem (hB.nearFar x hx)]
    · refine hrr.reparent hB.nodupFar fun x hx => ?_
      obtain ⟨hxe, hxl, -⟩ := hsub x (.inr hx)
      have hxr : x ≠ r := fun he => hB.far (he ▸ hx)
      have hxrl : x ∉ rl.toList := fun h => hB.nearFar x h hx
      simp [heap_rotated hxe hxr, root_ne_of_notMem hxl, root_ne_of_notMem hxrl]

/-- A rotation in memory is a rotation of the tree. -/
theorem rotate_spec : Does (Zip key (join s c l e (join s d rl r rr)) fs) (rotate s (some e))
      (fun _ => Zip key (join s d (join s c l e rl) r rr) fs) := by
  intro m hz
  obtain ⟨e1, e2, e3, -, -, hr⟩ := shape_join.mp hz.shape
  obtain ⟨r1, r2, -⟩ := shape_join.mp hr
  obtain ⟨hk, hp, hs⟩ := rotated_zip hz
  refine ⟨(), _, ?_, Zip.relink hk hp hs ?_⟩
  · rw [rotate_run e3 e1 (e2.trans (root_join ..)) r1 r2, replaceChild_run hp hz.apart.path, root_join]
  · rw [toList_rotate]
    exact hz.nodup

/-! ### Reading -/

theorem Zip.entry (hz : Zip key (.node c n a f) fs m) : m.heap a = ⟨key a, n.root, f.root, above fs, c⟩ := by
  obtain ⟨h1, h2, h3, h4, -⟩ := hz.shape
  rw [← hz.keys a, ← h1, ← h2, ← h3, ← h4]

section

variable (hz : Zip key (join s c n a f) fs m)
include hz

theorem Zip.child : (m.heap a).child s = n.root :=
  (shape_join.mp hz.shape).1

theorem Zip.childOther : (m.heap a).child s.other = f.root :=
  (shape_join.mp hz.shape).2.1

theorem Zip.parent : (m.heap a).parent = above fs :=
  (shape_join.mp hz.shape).2.2.1

theorem Zip.col : (m.heap a).col = c :=
  (shape_join.mp hz.shape).2.2.2.1

end

theorem Zip.root (hz : Zip key t fs m) : m.root = (plug t fs).root := (zip_plug.mp hz).path

theorem isRed_run (hs : Shape m.heap par t) : (isRed t.root).run m = some (decide (t.col = .red), m) := by
  cases t with
  | nil => rfl
  | node c l a r =>
    obtain ⟨-, -, -, h4, -⟩ := hs
    change some (decide ((m.heap a).col = .red), m) = _
    rw [h4]
    rfl

theorem isBlack_run (hs : Shape m.heap par t) : (isBlack t.root).run m = some (decide (t.col = .black), m) := by
  cases t with
  | nil => rfl
  | node c l a r =>
    obtain ⟨-, -, -, h4, -⟩ := hs
    change some (decide ((m.heap a).col = .black), m) = _
    rw [h4]
    rfl

/-- Above a path there is another root than below it. -/
theorem root_plug_ne {f : Frame ℕ} (ha : a ∉ entries (f :: fs)) : (plug t (f :: fs)).root ≠ some a := by
  induction fs generalizing t f with
  | nil =>
    intro h
    rw [plug, plug, Frame.plug, root_join] at h
    simp [entries, ← Option.some.inj h] at ha
  | cons g fs ih =>
    refine ih (t := f.plug t) fun h => ha ?_
    rw [entries]
    exact mem_append_right _ h

/-! ### Painting -/

theorem setCol_spec : Does (Zip key (join s c n a f) fs) (setCol (some a) d) (fun _ => Zip key (join s d n a f) fs) :=
  fun m hz => ⟨(), _, run_setCol m a d, hz.setCol d⟩

theorem setCol_near : Does (Zip key (join s c (join s' c' n' b f') a f) fs) (setCol (some b) d)
      (fun _ => Zip key (join s c (join s' d n' b f') a f) fs) :=
  setCol_spec.congr (fun _ => zip_near) fun _ => zip_near

theorem setCol_far : Does (Zip key (join s c n a (join s' c' n' b f')) fs) (setCol (some b) d)
      (fun _ => Zip key (join s c n a (join s' d n' b f')) fs) :=
  setCol_spec.congr (fun _ => zip_far) fun _ => zip_far

/-- A black root is not changed. -/
theorem setCol_root (hz : Zip key t fs m) (hb : (plug t fs).Balanced) (hr : m.root = some r) :
    (setCol (some r) .black).run m = some ((), m) := by
  have hz' := zip_plug.mp hz
  cases ht : plug t fs with
  | nil =>
    rw [hz.root, ht] at hr
    cases hr
  | node c l a f =>
    rw [ht] at hz' hb
    rw [hz.root, ht] at hr
    cases hr
    have hc : c = .black := hb.1
    rw [run_setCol, upd_col_self]
    rw [hz'.entry, hc]

end Anoubis.Apn.RbTree

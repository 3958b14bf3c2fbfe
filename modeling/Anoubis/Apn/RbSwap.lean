import Anoubis.Apn.RbShape
import Mathlib.Logic.Equiv.Basic

/-! Exchange of two entries (`rb_swap`).

    The entries change places, so afterwards the memory holds the same tree with the two addresses
    exchanged. It is enough to look at one entry at a time: if the entry at `a` had certain
    neighbours, the entry at `σ a` has the images of these under the exchange `σ` (`Renamed`). -/

namespace Anoubis.Apn.RbTree

open Anoubis.Lib Anoubis.Lib.RbTree

variable {key : ℕ → ℕ} {m m' : Mem} {t : RbTree ℕ} {fs : List (Frame ℕ)} {e1 e2 : ℕ}

/-! ### Neighbours -/

/-- Children and parents of the entries of `l` agree. -/
structure Links (l : List ℕ) (m : Mem) : Prop where
  up : ∀ a ∈ l, ∀ s b, (m.heap a).child s = some b → b ∈ l ∧ (m.heap b).parent = some a
  down : ∀ b ∈ l, ∀ a, (m.heap b).parent = some a → a ∈ l ∧ ∃ s, (m.heap a).child s = some b
  apart : ∀ a ∈ l, ∀ s b, (m.heap a).child s = some b → (m.heap a).child s.other ≠ some b
  self : ∀ a ∈ l, ∀ s, (m.heap a).child s ≠ some a
  acyclic : ∀ a ∈ l, ∀ s b, (m.heap a).child s = some b → (m.heap a).parent ≠ some b
  root : ∀ a ∈ l, (m.heap a).parent = none ↔ m.root = some a

theorem Zip.links (hz : Zip key t [] m) : Links t.toList m := by
  have hfocus : ∀ a ∈ t.toList, ∀ s, ∃ c n f fs, t = plug (join s c n a f) fs ∧
      Zip key (join s c n a f) fs m := by
    intro a ha s
    obtain ⟨c, l, r, fs, rfl⟩ := exists_plug ha
    cases s with
    | left => exact ⟨c, l, r, fs, rfl, zip_plug.mpr hz⟩
    | right => exact ⟨c, r, l, fs, rfl, zip_plug.mpr hz⟩
  have hmem : ∀ {t' : RbTree ℕ} {fs : List (Frame ℕ)} {b : ℕ}, t = plug t' fs →
      b ∈ t'.toList ++ entries fs → b ∈ t.toList := by
    rintro t' fs b rfl hb
    exact (perm_plug t' fs).mem_iff.mpr hb
  refine ⟨?_, ?_, ?_, ?_, ?_, ?_⟩
  · intro a ha s b hb
    obtain ⟨c, n, f, fs, ht, hz⟩ := hfocus a ha s
    have hroot : n.root = some b := hz.child.symm.trans hb
    refine ⟨hmem ht (List.mem_append_left _ (mem_join.mpr (.inr (.inl (mem_of_root hroot))))), ?_⟩
    cases n with
    | nil => cases hroot
    | node c' l b' r =>
      cases hroot
      rw [(zip_near.mp hz).entry]
      rfl
  · intro b hb a ha
    obtain ⟨c, n, f, fs, ht, hz⟩ := hfocus b hb .left
    cases fs with
    | nil =>
      rw [hz.parent] at ha
      cases ha
    | cons g fs =>
      rw [hz.parent] at ha
      cases ha
      exact ⟨hmem ht (by simp [entries]), g.side, hz.path.1.trans (root_join ..)⟩
  · intro a ha s b hb hb'
    obtain ⟨c, n, f, fs, -, hz⟩ := hfocus a ha s
    have h1 : n.root = some b := hz.child.symm.trans hb
    have h2 : f.root = some b := hz.childOther.symm.trans hb'
    exact hz.apart.nearFar b (mem_of_root h1) (mem_of_root h2)
  · intro a ha s hb
    obtain ⟨c, n, f, fs, -, hz⟩ := hfocus a ha s
    exact hz.apart.near (mem_of_root (hz.child.symm.trans hb))
  · intro a ha s b hb hp
    obtain ⟨c, n, f, fs, -, hz⟩ := hfocus a ha s
    rw [hz.parent] at hp
    refine hz.apart.nearPath b (mem_of_root (hz.child.symm.trans hb)) ?_
    cases fs with
    | nil => cases hp
    | cons g fs =>
      cases hp
      simp [entries]
  · intro a ha
    obtain ⟨c, n, f, fs, -, hz⟩ := hfocus a ha .left
    rw [hz.parent, hz.root]
    cases fs with
    | nil => simp [above, plug]
    | cons g fs => simp [above, root_plug_ne hz.apart.path]

/-- The side of its parent on which an entry is. -/
def sideOf (m : Mem) (e a : ℕ) : Side := if (m.heap a).left = some e then .left else .right

variable {l : List ℕ} {a e : ℕ}

theorem Links.child_iff (h : Links l m) (ha : a ∈ l) (he : e ∈ l) (s : Side) :
    (m.heap a).child s = some e ↔ (m.heap e).parent = some a ∧ s = sideOf m e a := by
  constructor
  · intro hc
    refine ⟨(h.up a ha s e hc).2, ?_⟩
    have hne := h.apart a ha s e hc
    cases s with
    | left => simp [sideOf, show (m.heap a).left = some e from hc]
    | right => simp [sideOf, show (m.heap a).left ≠ some e from hne]
  · rintro ⟨hp, rfl⟩
    obtain ⟨-, s, hs⟩ := h.down e he a hp
    have hne := h.apart a ha s e hs
    cases s with
    | left => simpa [sideOf, show (m.heap a).left = some e from hs] using hs
    | right => simpa [sideOf, show (m.heap a).left ≠ some e from hne] using hs

/-! ### Renaming -/

/-- The memory `m'` is `m` with the addresses of `l` renamed by `σ`; keys stay where they are. -/
structure Renamed (σ : ℕ → ℕ) (l : List ℕ) (m m' : Mem) : Prop where
  keys : ∀ a, (m'.heap a).key = (m.heap a).key
  root : m'.root = m.root.map σ
  child : ∀ a ∈ l, ∀ s, (m'.heap (σ a)).child s = ((m.heap a).child s).map σ
  parent : ∀ a ∈ l, (m'.heap (σ a)).parent = (m.heap a).parent.map σ
  col : ∀ a ∈ l, (m'.heap (σ a)).col = (m.heap a).col

theorem Renamed.shape {σ : ℕ → ℕ} (hr : Renamed σ l m m') {par : Ptr} (hs : Shape m.heap par t)
    (hl : ∀ a ∈ t.toList, a ∈ l) : Shape m'.heap (par.map σ) (t.map σ) := by
  induction t generalizing par with
  | nil => trivial
  | node c n a f ihl ihr =>
    obtain ⟨h1, h2, h3, h4, hn, hf⟩ := hs
    have ha : a ∈ l := hl a (by simp [toList])
    have hleft := hr.child a ha .left
    have hright := hr.child a ha .right
    refine ⟨?_, ?_, ?_, ?_, ?_, ?_⟩
    · rw [root_map, ← h1]
      exact hleft
    · rw [root_map, ← h2]
      exact hright
    · rw [hr.parent a ha, h3]
    · rw [hr.col a ha, h4]
    · exact ihl hn fun b hb => hl b (by simp [toList, hb])
    · exact ihr hf fun b hb => hl b (by simp [toList, hb])

theorem Renamed.zip {σ : ℕ ≃ ℕ} (hr : Renamed σ t.toList m m') (hz : Zip key t [] m) : Zip key (t.map σ) [] m' := by
  refine ⟨fun a => (hr.keys a).trans (hz.keys a), hr.shape hz.shape fun a ha => ha, ?_, ?_⟩
  · change m'.root = _
    rw [hr.root, root_map]
    exact congrArg (Option.map σ) hz.path
  · rw [toList_map]
    have hn : t.toList.Nodup := by simpa [entries] using hz.nodup
    simpa [entries] using hn.map σ.injective

/-! ### The two entries -/

/-- What `rb_swap` needs to know of the neighbours of `e1` and `e2`: `e2` is not the parent of `e1`. -/
structure Below (e1 e2 : ℕ) (x1 x2 : Entry) : Prop where
  ne : e1 ≠ e2
  child1 : ∀ s, x1.child s ≠ some e1
  parent1 : x1.parent ≠ some e1 ∧ x1.parent ≠ some e2
  child2 : ∀ s, x2.child s ≠ some e1 ∧ x2.child s ≠ some e2
  parent2 : x2.parent ≠ some e2
  near : x2.parent ≠ some e1 → ∀ s, x1.child s ≠ some e2

theorem Links.below (h : Links l m) (h1 : e1 ∈ l) (h2 : e2 ∈ l) (hne : e1 ≠ e2)
    (hp : (m.heap e1).parent ≠ some e2) : Below e1 e2 (m.heap e1) (m.heap e2) := by
  have hself : ∀ a ∈ l, (m.heap a).parent ≠ some a := by
    intro a ha hpa
    obtain ⟨-, s, hs⟩ := h.down a ha a hpa
    exact h.self a ha s hs
  refine ⟨hne, h.self e1 h1, ⟨hself e1 h1, hp⟩, fun s => ⟨fun hc => ?_, h.self e2 h2 s⟩, hself e2 h2, ?_⟩
  · exact hp (h.up e2 h2 s e1 hc).2
  · intro hp2 s hc
    exact hp2 (h.up e1 h1 s e2 hc).2

theorem map_swap_of_ne {p : Ptr} (h1 : p ≠ some e1) (h2 : p ≠ some e2) : p.map (Equiv.swap e1 e2) = p := by
  cases p with
  | none => rfl
  | some a =>
    rw [Option.map_some, Equiv.swap_apply_of_ne_of_ne]
    · rintro rfl
      exact h1 rfl
    · rintro rfl
      exact h2 rfl

/-- The entry with other neighbours and another key. -/
def Entry.renamed (x : Entry) (σ : ℕ → ℕ) (k : ℕ) : Entry :=
  ⟨k, x.left.map σ, x.right.map σ, x.parent.map σ, x.col⟩

@[simp] theorem child_renamed (x : Entry) (σ : ℕ → ℕ) (k : ℕ) (s : Side) :
    (x.renamed σ k).child s = (x.child s).map σ := by cases s <;> rfl

/-- The two entries have changed places, their neighbours do not know it yet. -/
def Mem.exchanged (m : Mem) (e1 e2 : ℕ) : Mem :=
  { m with heap := fun a =>
      if a = e1 then (m.heap e2).renamed (Equiv.swap e1 e2) (m.heap e1).key
      else if a = e2 then (m.heap e1).renamed (Equiv.swap e1 e2) (m.heap e2).key
      else m.heap a }

theorem swapChild_run (m : Mem) (s : Side) (e1 e2 : ℕ) : (swapChild s (some e1) (some e2)).run m =
      some ((), (m.upd e1 (fun x => x.setChild ((m.heap e2).child s) s)).upd e2
        (fun x => x.setChild ((m.heap e1).child s) s)) := rfl

theorem swapNear_run {s : Side} (h : (m.heap e1).child s ≠ some e1) : (swapNear s (some e1) (some e2)).run m =
      some ((), (m.upd e1 (fun x => x.setChild ((m.heap e2).child s) s)).upd e2
        (fun x => x.setChild (((m.heap e1).child s).map (Equiv.swap e1 e2)) s)) := by
  rw [swapNear, run_bind (run_load m e1)]
  by_cases hc : (m.heap e1).child s = some e2
  · rw [if_pos hc, hc, Option.map_some, Equiv.swap_apply_right]
    rfl
  · rw [if_neg hc, swapChild_run, map_swap_of_ne h hc]

theorem swapCol_run (m : Mem) (e1 e2 : ℕ) : (swapCol (some e1) (some e2)).run m =
      some ((), (m.upd e1 (fun x => x.setCol (m.heap e2).col)).upd e2 (fun x => x.setCol (m.heap e1).col)) := rfl

theorem swapParent_run (m : Mem) (e1 e2 : ℕ) : (swapParent (some e1) (some e2)).run m =
      some ((), (m.upd e1 (fun x => x.setParent (m.heap e2).parent)).upd e2
        (fun x => x.setParent (m.heap e1).parent)) := rfl

theorem mem_eq (hr : m.root = m'.root) (hh : ∀ a, m.heap a = m'.heap a) : m = m' := by
  obtain ⟨r, h⟩ := m
  obtain ⟨r', h'⟩ := m'
  obtain rfl : r = r' := hr
  obtain rfl : h = h' := funext hh
  rfl

theorem swapEntries_run (hb : Below e1 e2 (m.heap e1) (m.heap e2)) :
    (do swapCol (some e1) (some e2); swapFields (some e1) (some e2) : M Unit).run m =
      some ((), m.exchanged e1 e2) := by
  obtain ⟨hne, hc1, hp1, hc2, hp2, hnear⟩ := hb
  have hne' : e2 ≠ e1 := hne.symm
  have hl2 : (m.heap e2).left.map (Equiv.swap e1 e2) = (m.heap e2).left :=
    map_swap_of_ne (hc2 .left).1 (hc2 .left).2
  have hr2 : (m.heap e2).right.map (Equiv.swap e1 e2) = (m.heap e2).right :=
    map_swap_of_ne (hc2 .right).1 (hc2 .right).2
  have hpar1 : (m.heap e1).parent.map (Equiv.swap e1 e2) = (m.heap e1).parent := map_swap_of_ne hp1.1 hp1.2
  rw [run_bind (swapCol_run m e1 e2), swapFields, run_bind (run_load _ e2)]
  by_cases hadj : (m.heap e2).parent = some e1
  · have hpar : (((m.upd e1 (fun x => x.setCol (m.heap e2).col)).upd e2
        (fun x => x.setCol (m.heap e1).col)).heap e2).parent = some e1 := by
      simp [heap_upd, hne', hadj]
    rw [if_pos hpar, run_bind (run_load _ e1), run_bind (run_setParent ..), run_bind (run_setParent ..)]
    rw [run_bind (swapNear_run ?_), swapNear_run]
    · refine congrArg (fun m => some ((), m)) (mem_eq rfl fun a => ?_)
      by_cases h1 : a = e1
      · subst h1
        simp [Mem.exchanged, Entry.renamed, heap_upd, hne, hne', Entry.setChild, Entry.setParent,
          Entry.setCol, Entry.child, hl2, hr2, hadj]
      · by_cases h2 : a = e2
        · subst h2
          simp [Mem.exchanged, Entry.renamed, heap_upd, hne, hne', Entry.setChild, Entry.setParent,
            Entry.setCol, Entry.child, hpar1]
        · simp [Mem.exchanged, heap_upd, h1, h2]
    · simpa [heap_upd, hne, hne', Entry.setChild, Entry.child] using hc1 .right
    · simpa [heap_upd, hne, hne'] using hc1 .left
  · have hpar : (((m.upd e1 (fun x => x.setCol (m.heap e2).col)).upd e2
        (fun x => x.setCol (m.heap e1).col)).heap e2).parent ≠ some e1 := by
      simpa [heap_upd, hne'] using hadj
    rw [if_neg hpar, run_bind (swapParent_run ..), run_bind (swapChild_run ..), swapChild_run]
    have hl1 : (m.heap e1).left.map (Equiv.swap e1 e2) = (m.heap e1).left :=
      map_swap_of_ne (hc1 .left) (hnear hadj .left)
    have hr1 : (m.heap e1).right.map (Equiv.swap e1 e2) = (m.heap e1).right :=
      map_swap_of_ne (hc1 .right) (hnear hadj .right)
    have hpar2 : (m.heap e2).parent.map (Equiv.swap e1 e2) = (m.heap e2).parent :=
      map_swap_of_ne hadj hp2
    refine congrArg (fun m => some ((), m)) (mem_eq rfl fun a => ?_)
    by_cases h1 : a = e1
    · subst h1
      simp [Mem.exchanged, Entry.renamed, heap_upd, hne, hne', Entry.setChild, Entry.setParent,
        Entry.setCol, Entry.child, hl2, hr2, hpar2]
    · by_cases h2 : a = e2
      · subst h2
        simp [Mem.exchanged, Entry.renamed, heap_upd, hne, hne', Entry.setChild, Entry.setParent,
          Entry.setCol, Entry.child, hpar1, hl1, hr1]
      · simp [Mem.exchanged, heap_upd, h1, h2]

/-! ### Their neighbours -/

/-- The parent `p`, or the root, gets a new child. -/
def Mem.hook (m : Mem) (p : Ptr) (s : Side) (v : Ptr) : Mem :=
  match p with
  | none => { m with root := v }
  | some q => m.upd q (fun x => x.setChild v s)

theorem heap_hook (m : Mem) (p : Ptr) (s : Side) (v : Ptr) (a : ℕ) :
    (m.hook p s v).heap a = if p = some a then (m.heap a).setChild v s else m.heap a := by
  cases p with
  | none => rfl
  | some q => exact heap_updP m (some q) (fun x => x.setChild v s) a

theorem root_hook (m : Mem) (p : Ptr) (s : Side) (v : Ptr) :
    (m.hook p s v).root = if p = none then v else m.root := by
  cases p <;> rfl

theorem isLeft_run (m : Mem) (e : ℕ) :
    (isLeft e).run m = some (match (m.heap e).parent with
      | none => false
      | some q => decide ((m.heap q).left = some e), m) := by
  rw [isLeft, run_bind (run_load m e)]
  cases (m.heap e).parent <;> rfl

theorem fixParent_run {p : Ptr} (left : Bool) (hp : (m.heap e).parent = p) :
    (fixParent p.isNone left (some e)).run m = some ((), m.hook p (if left then .left else .right) (some e)) := by
  cases p with
  | none => rfl
  | some q =>
    change (load (some e) >>= fun x => setChild _ x.parent (some e)).run m = _
    rw [run_bind (run_load m e), hp]
    rfl

/-- The children of `e` learn their parent. -/
def Mem.adopted (m : Mem) (e : ℕ) : Mem :=
  (m.updP (m.heap e).left (fun x => x.setParent (some e))).updP (m.heap e).right
    (fun x => x.setParent (some e))

theorem fixChildren_run (m : Mem) (e : ℕ) : (fixChildren (some e)).run m = some ((), m.adopted e) := by
  rw [fixChildren, run_bind (run_load m e), run_bind (run_adopt ..), run_bind (run_load _ e), run_adopt]
  have hr : ((m.updP (m.heap e).left (fun x => x.setParent (some e))).heap e).right = (m.heap e).right := by
    rw [heap_updP]
    split <;> rfl
  rw [hr]
  rfl

/-- Only the parent of a child changes. -/
theorem heap_adopted (m : Mem) (e a : ℕ) : (m.adopted e).heap a =
    (m.heap a).setParent (if (m.heap e).left = some a ∨ (m.heap e).right = some a then some e
      else (m.heap a).parent) := by
  rw [Mem.adopted, heap_updP, heap_updP]
  by_cases h1 : (m.heap e).left = some a <;> by_cases h2 : (m.heap e).right = some a <;>
    simp [h1, h2, Entry.setParent]

theorem parent_adopted {s : Side} (h : (m.heap e).child s = some a) : ((m.adopted e).heap a).parent = some e := by
  rw [heap_adopted, parent_setParent, if_pos]
  cases s with
  | left => exact .inl h
  | right => exact .inr h

theorem parent_adopted_of_ne (h : ∀ s, (m.heap e).child s ≠ some a) :
    ((m.adopted e).heap a).parent = (m.heap a).parent := by
  rw [heap_adopted, parent_setParent, if_neg]
  rintro (hl | hr)
  · exact h .left hl
  · exact h .right hr

@[simp] theorem child_adopted (m : Mem) (e a : ℕ) (s : Side) :
    ((m.adopted e).heap a).child s = (m.heap a).child s := by simp [heap_adopted]

@[simp] theorem col_adopted (m : Mem) (e a : ℕ) : ((m.adopted e).heap a).col = (m.heap a).col := by
  simp [heap_adopted]

@[simp] theorem key_adopted (m : Mem) (e a : ℕ) : ((m.adopted e).heap a).key = (m.heap a).key := by
  simp [heap_adopted]

@[simp] theorem root_adopted (m : Mem) (e : ℕ) : (m.adopted e).root = m.root := by
  simp [Mem.adopted]

/-- The memory after `rb_swap`. -/
def Mem.swapped (m : Mem) (e1 e2 : ℕ) (s1 s2 : Side) : Mem :=
  ((((m.exchanged e1 e2).hook (m.heap e1).parent s1 (some e2)).hook
    ((m.heap e2).parent.map (Equiv.swap e1 e2)) s2 (some e1)).adopted e1).adopted e2

/-- The side of an entry below its parent. -/
def sideBelow (m : Mem) (e : ℕ) : Side :=
  match (m.heap e).parent with
  | none => .right
  | some q => sideOf m e q

theorem isLeft_side (m : Mem) (e : ℕ) :
    ∃ b, (isLeft e).run m = some (b, m) ∧ (if b then Side.left else .right) = sideBelow m e := by
  rw [isLeft_run, sideBelow]
  cases (m.heap e).parent with
  | none => exact ⟨false, rfl, rfl⟩
  | some q => exact ⟨_, rfl, by simp [sideOf]⟩

theorem swapDown_run (hb : Below e1 e2 (m.heap e1) (m.heap e2)) :
    (swapDown e1 e2).run m = some ((), m.swapped e1 e2 (sideBelow m e1) (sideBelow m e2)) := by
  obtain ⟨b1, hrun1, hs1⟩ := isLeft_side m e1
  obtain ⟨b2, hrun2, hs2⟩ := isLeft_side m e2
  rw [swapDown, run_bind (run_load m e1), run_bind hrun1, run_bind (run_load m e2), run_bind hrun2,
    ← bind_assoc, run_bind (swapEntries_run hb)]
  have hp1 : ((m.exchanged e1 e2).heap e2).parent = (m.heap e1).parent := by
    simp [Mem.exchanged, hb.ne.symm, Entry.renamed, map_swap_of_ne hb.parent1.1 hb.parent1.2]
  have hp2 : ((((m.exchanged e1 e2).hook (m.heap e1).parent (sideBelow m e1) (some e2))).heap e1).parent =
      (m.heap e2).parent.map (Equiv.swap e1 e2) := by
    rw [heap_hook, if_neg hb.parent1.1]
    simp [Mem.exchanged, Entry.renamed]
  have hnone : (m.heap e2).parent.isNone = ((m.heap e2).parent.map (Equiv.swap e1 e2)).isNone := by
    cases (m.heap e2).parent <;> rfl
  rw [run_bind (fixParent_run b1 hp1), hs1, hnone, run_bind (fixParent_run b2 hp2), hs2,
    run_bind (fixChildren_run ..), fixChildren_run]
  rfl

theorem child_hook (m : Mem) (p : Ptr) (s s' : Side) (v : Ptr) (a : ℕ) :
    ((m.hook p s v).heap a).child s' = if p = some a ∧ s' = s then v else (m.heap a).child s' := by
  rw [heap_hook]
  by_cases hp : p = some a
  · cases s <;> cases s' <;> simp [hp, Entry.setChild, Entry.child]
  · simp [hp]

@[simp] theorem parent_hook (m : Mem) (p : Ptr) (s : Side) (v : Ptr) (a : ℕ) :
    ((m.hook p s v).heap a).parent = (m.heap a).parent := by
  rw [heap_hook]
  split <;> simp

@[simp] theorem col_hook (m : Mem) (p : Ptr) (s : Side) (v : Ptr) (a : ℕ) :
    ((m.hook p s v).heap a).col = (m.heap a).col := by
  rw [heap_hook]
  split <;> simp

@[simp] theorem key_hook (m : Mem) (p : Ptr) (s : Side) (v : Ptr) (a : ℕ) :
    ((m.hook p s v).heap a).key = (m.heap a).key := by
  rw [heap_hook]
  split <;> simp

theorem map_swap_eq_some {p : Ptr} : p.map (Equiv.swap e1 e2) = some a ↔ p = some (Equiv.swap e1 e2 a) := by
  cases p with
  | none => simp
  | some b => simp [Equiv.swap_apply_eq_iff]

theorem sideBelow_eq (h : (m.heap e).parent = some a) : sideBelow m e = sideOf m e a := by
  rw [sideBelow, h]

/-- The exchange does to an entry that is not one of the two what the renaming does. -/
theorem heap_exchanged (hne : e1 ≠ e2) (a : ℕ) :
    (m.exchanged e1 e2).heap (Equiv.swap e1 e2 a) =
      if a = e1 ∨ a = e2 then
        (m.heap a).renamed (Equiv.swap e1 e2) (m.heap (Equiv.swap e1 e2 a)).key
      else m.heap a := by
  by_cases h1 : a = e1
  · subst h1
    simp [Mem.exchanged, hne.symm]
  · by_cases h2 : a = e2
    · subst h2
      simp [Mem.exchanged]
    · simp [Mem.exchanged, Equiv.swap_apply_of_ne_of_ne h1 h2, h1, h2]

/-- The children before the last step. -/
theorem child_hooked (h : Links l m) (h1 : e1 ∈ l) (h2 : e2 ∈ l) (hb : Below e1 e2 (m.heap e1) (m.heap e2))
    (ha : a ∈ l) (s : Side) : ((((m.exchanged e1 e2).hook (m.heap e1).parent (sideBelow m e1) (some e2)).hook
      ((m.heap e2).parent.map (Equiv.swap e1 e2)) (sideBelow m e2) (some e1)).heap
        (Equiv.swap e1 e2 a)).child s = ((m.heap a).child s).map (Equiv.swap e1 e2) := by
  have hside : ∀ e ∈ l, ((m.heap e).parent = some a ∧ s = sideBelow m e) ↔ (m.heap a).child s = some e := by
    intro e he
    rw [h.child_iff ha he]
    refine and_congr_right fun hp => ?_
    rw [sideBelow_eq hp]
  have hp1 : (m.heap e1).parent = some (Equiv.swap e1 e2 a) ↔ (m.heap e1).parent = some a := by
    rw [← map_swap_eq_some, map_swap_of_ne hb.parent1.1 hb.parent1.2]
  rw [child_hook, child_hook, heap_exchanged hb.ne]
  simp only [map_swap_eq_some, Equiv.swap_apply_self, hp1, hside e1 h1, hside e2 h2]
  by_cases hc2 : (m.heap a).child s = some e2
  · simp [hc2]
  · by_cases hc1 : (m.heap a).child s = some e1
    · simp [hc1, hb.ne]
    · rw [if_neg hc2, if_neg hc1]
      split
      · rw [child_renamed]
      · rw [map_swap_of_ne hc1 hc2]

theorem swapped_renamed (h : Links l m) (h1 : e1 ∈ l) (h2 : e2 ∈ l) (hb : Below e1 e2 (m.heap e1) (m.heap e2)) :
    Renamed (Equiv.swap e1 e2) l m (m.swapped e1 e2 (sideBelow m e1) (sideBelow m e2)) := by
  have hkids := fun {a : ℕ} (ha : a ∈ l) (s : Side) => child_hooked h h1 h2 hb ha s
  refine ⟨?_, ?_, ?_, ?_, ?_⟩
  · intro a
    simp only [Mem.swapped, key_adopted, key_hook, Mem.exchanged]
    split_ifs with ha1 ha2
    · rw [ha1]
      rfl
    · rw [ha2]
      rfl
    · rfl
  · simp only [Mem.swapped, root_adopted, root_hook, Option.map_eq_none_iff]
    by_cases hr2 : (m.heap e2).parent = none
    · rw [if_pos hr2, (h.root e2 h2).mp hr2]
      simp
    · by_cases hr1 : (m.heap e1).parent = none
      · rw [if_neg hr2, if_pos hr1, (h.root e1 h1).mp hr1]
        simp
      · rw [if_neg hr2, if_neg hr1, map_swap_of_ne]
        · rfl
        · exact fun hr => hr1 ((h.root e1 h1).mpr hr)
        · exact fun hr => hr2 ((h.root e2 h2).mpr hr)
  · intro a ha s
    rw [Mem.swapped, child_adopted, child_adopted]
    exact hkids ha s
  · intro a ha
    have hk2 : ∀ s, ((((m.exchanged e1 e2).hook (m.heap e1).parent (sideBelow m e1) (some e2)).hook
        ((m.heap e2).parent.map (Equiv.swap e1 e2)) (sideBelow m e2) (some e1)).heap e2).child s =
          some (Equiv.swap e1 e2 a) ↔ (m.heap e1).child s = some a := by
      intro s
      have hk := hkids h1 s
      rw [Equiv.swap_apply_left] at hk
      rw [hk, map_swap_eq_some, Equiv.swap_apply_self]
    have hk1 : ∀ s, ((((m.exchanged e1 e2).hook (m.heap e1).parent (sideBelow m e1) (some e2)).hook
        ((m.heap e2).parent.map (Equiv.swap e1 e2)) (sideBelow m e2) (some e1)).heap e1).child s =
          some (Equiv.swap e1 e2 a) ↔ (m.heap e2).child s = some a := by
      intro s
      have hk := hkids h2 s
      rw [Equiv.swap_apply_right] at hk
      rw [hk, map_swap_eq_some, Equiv.swap_apply_self]
    rw [Mem.swapped]
    by_cases hc1 : ∃ s, (m.heap e1).child s = some a
    · obtain ⟨s, hs⟩ := hc1
      have hs' := (hk2 s).mpr hs
      rw [← child_adopted _ e1] at hs'
      rw [parent_adopted hs', (h.up e1 h1 s a hs).2]
      simp
    · have hn1 : (m.heap a).parent ≠ some e1 := fun hp => hc1 (h.down a ha e1 hp).2
      rw [parent_adopted_of_ne fun s hs => hc1 ⟨s, (hk2 s).mp (by rwa [child_adopted] at hs)⟩]
      by_cases hc2 : ∃ s, (m.heap e2).child s = some a
      · obtain ⟨s, hs⟩ := hc2
        rw [parent_adopted ((hk1 s).mpr hs), (h.up e2 h2 s a hs).2]
        simp
      · have hn2 : (m.heap a).parent ≠ some e2 := fun hp => hc2 (h.down a ha e2 hp).2
        rw [parent_adopted_of_ne fun s hs => hc2 ⟨s, (hk1 s).mp hs⟩, parent_hook, parent_hook,
          heap_exchanged hb.ne]
        split
        · rfl
        · rw [map_swap_of_ne hn1 hn2]
  · intro a ha
    simp only [Mem.swapped, col_adopted, col_hook, heap_exchanged hb.ne]
    split <;> rfl

/-- `rb_swap` exchanges two entries. -/
theorem rbSwap_spec (h1 : e1 ∈ t.toList) (h2 : e2 ∈ t.toList) (hne : e1 ≠ e2) :
    Does (Zip key t []) (rbSwap e1 e2) (fun _ => Zip key (t.map (Equiv.swap e1 e2)) []) := by
  intro m hz
  rw [rbSwap, run_bind (run_load m e1)]
  have hl := hz.links
  by_cases hp : (m.heap e1).parent = some e2
  · -- the two entries change their roles
    have hp' : (m.heap e2).parent ≠ some e1 := by
      intro hp'
      obtain ⟨-, s, hs⟩ := hl.down e2 h2 e1 hp'
      exact hl.acyclic e1 h1 s e2 hs hp
    have hb := hl.below h2 h1 hne.symm hp'
    rw [if_pos hp, Equiv.swap_comm]
    exact ⟨(), _, swapDown_run hb, (swapped_renamed hl h2 h1 hb).zip hz⟩
  · have hb := hl.below h1 h2 hne hp
    rw [if_neg hp]
    exact ⟨(), _, swapDown_run hb, (swapped_renamed hl h1 h2 hb).zip hz⟩

end Anoubis.Apn.RbTree

import Anoubis.Apn.RbShape

/-! Search and insertion in the tree of entries.

    The search walks down to the place of the key; the loop behind the insertion walks up again and
    repairs the colours. Its invariant: the tree below is balanced if its root is red, and the path
    takes a black tree of this height.

        fixup :  path = []            paint the root black
                 parent black         nothing to do
                 uncle red            paint, go on at the grandparent
                 uncle black          one or two rotations   -/

namespace Anoubis.Apn.RbTree

open Anoubis.Lib Anoubis.Lib.RbTree List

variable {key : ℕ → ℕ} {m : Mem} {t : RbTree ℕ} {fs : List (Frame ℕ)} {s : Side} {c : Color}
  {n f : RbTree ℕ} {a k : ℕ}

/-- The keys of the entries are in order. -/
def Sorted (key : ℕ → ℕ) (l : List ℕ) : Prop := l.Pairwise (fun a b => key a < key b)

/-! ### Search -/

variable {l r u : RbTree ℕ} {x e q : ℕ}

theorem sorted_node {c : Color} (h : Sorted key (RbTree.node c l a r).toList) :
    Sorted key l.toList ∧ Sorted key r.toList ∧ (∀ x ∈ l.toList, key x < key a) ∧
      ∀ x ∈ r.toList, key a < key x := by
  obtain ⟨hl, hr, hlr⟩ := pairwise_append.mp h
  obtain ⟨har, hr⟩ := pairwise_cons.mp hr
  exact ⟨hl, hr, fun x hx => hlr x hx a mem_cons_self, har⟩

/-- The result of a search for a key. -/
def Found (key : ℕ → ℕ) (t : RbTree ℕ) (k : ℕ) (r : Ptr) : Prop :=
  ∀ a, r = some a ↔ a ∈ t.toList ∧ key a = k

variable {y p : ℕ} {s₁ s₂ s' : Side} {c₁ c₂ : Color} {n₁ f₁ n₂ f₂ sib : RbTree ℕ}

theorem found_unique {l : List ℕ} (hs : Sorted key l) (hx : x ∈ l) (hy : y ∈ l) (hk : key x = key y) : x = y := by
  by_contra hne
  have h := List.Pairwise.forall_of_forall_of_flip (R := fun a b => key a = key b → a = b)
    (fun _ _ _ => rfl) (hs.imp fun hlt he => absurd he (ne_of_lt hlt))
    (hs.imp fun hlt he => absurd he (Nat.ne_of_gt hlt)) hx hy hk
  exact hne h

/-- Only one side of the tree can have the key. -/
theorem found_side {c : Color} (h : Sorted key (RbTree.node c l a r).toList) (p : Ptr) :
    (key a = k → Found key (.node c l a r) k (some a)) ∧
    (key a > k → Found key l k p → Found key (.node c l a r) k p) ∧
    (key a < k → Found key r k p → Found key (.node c l a r) k p) := by
  obtain ⟨-, -, hl, hr⟩ := sorted_node h
  have hmem : ∀ x, x ∈ (RbTree.node c l a r).toList ↔ x ∈ l.toList ∨ x = a ∨ x ∈ r.toList := by
    simp [toList]
  refine ⟨fun hk x => ?_, fun hk hf x => ?_, fun hk hf x => ?_⟩
  · constructor
    · intro hx
      cases hx
      exact ⟨(hmem a).mpr (.inr (.inl rfl)), hk⟩
    · rintro ⟨hx, hkx⟩
      rw [found_unique h hx ((hmem a).mpr (.inr (.inl rfl))) (hkx.trans hk.symm)]
  · rw [hf x, hmem]
    refine and_congr_left fun hkx => ⟨.inl, ?_⟩
    rintro (hx | rfl | hx)
    · exact hx
    · omega
    · have := hr x hx
      omega
  · rw [hf x, hmem]
    refine and_congr_left fun hkx => ⟨fun hx => .inr (.inr hx), ?_⟩
    rintro (hx | rfl | hx)
    · have := hl x hx
      omega
    · omega
    · exact hx

theorem rbFind_run : ∀ {fs : List (Frame ℕ)}, Zip key t fs m → Sorted key t.toList →
    ∃ r, (rbFind t.root k).run m = some (r, m) ∧ Found key t k r := by
  induction t with
  | nil =>
    intro fs hz hs
    refine ⟨none, ?_, by simp [Found, toList]⟩
    rw [root, rbFind_none]
    rfl
  | node c l a r ihl ihr =>
    intro fs hz hs
    obtain ⟨hl, hr, -, -⟩ := sorted_node hs
    rw [root, rbFind_some, run_bind (run_load m a), hz.entry]
    dsimp only
    by_cases h1 : key a = k
    · rw [if_pos h1]
      exact ⟨some a, rfl, (found_side hs none).1 h1⟩
    · rw [if_neg h1]
      by_cases h2 : key a > k
      · rw [if_pos h2]
        obtain ⟨p, hrun, hf⟩ := ihl (zip_near (s := .left) |>.mp hz) hl
        exact ⟨p, hrun, (found_side hs p).2.1 h2 hf⟩
      · rw [if_neg h2]
        have h3 : key a < k := by omega
        obtain ⟨p, hrun, hf⟩ := ihr (zip_far (s := .left) |>.mp hz) hr
        exact ⟨p, hrun, (found_side hs p).2.2 h3 hf⟩

/-! ### The place of a new entry -/

/-- The pointer at the end of the path. -/
def slot : List (Frame ℕ) → Slot
  | [] => .root
  | f :: _ => .child f.side f.entry

theorem loadSlot_run {top : Ptr} (hp : PathShape m top fs) : (loadSlot (slot fs)).run m = some (top, m) := by
  cases fs with
  | nil =>
    rw [slot, loadSlot, run_loadRoot]
    exact congrArg (fun p => some (p, m)) hp
  | cons f fs =>
    rw [slot, loadSlot, run_bind (run_load m f.entry), hp.1]
    rfl

theorem storeSlot_run (p : Ptr) (fs : List (Frame ℕ)) : (storeSlot p (slot fs)).run m = some ((), m.relink p fs) := by
  cases fs <;> rfl

/-- The key belongs to the end of the path. -/
structure Place (key : ℕ → ℕ) (k : ℕ) (fs : List (Frame ℕ)) : Prop where
  before : ∀ x ∈ before fs, key x < k
  after : ∀ x ∈ after fs, k < key x

theorem Place.left {c : Color} (hp : Place key k fs) (hs : Sorted key (RbTree.node c l a r).toList)
    (hk : key a > k) : Place key k (⟨.left, c, a, r⟩ :: fs) := by
  obtain ⟨-, -, -, hr⟩ := sorted_node hs
  refine ⟨hp.before, fun x hx => ?_⟩
  simp only [RbTree.after, mem_append, mem_cons] at hx
  rcases hx with (rfl | hx) | hx
  · exact hk
  · exact Nat.lt_trans hk (hr x hx)
  · exact hp.after x hx

theorem Place.right {c : Color} (hp : Place key k fs) (hs : Sorted key (RbTree.node c l a r).toList)
    (hk : key a < k) : Place key k (⟨.right, c, a, l⟩ :: fs) := by
  obtain ⟨-, -, hl, -⟩ := sorted_node hs
  refine ⟨fun x hx => ?_, hp.after⟩
  simp only [RbTree.before, mem_append, mem_singleton] at hx
  rcases hx with hx | hx | rfl
  · exact hp.before x hx
  · exact Nat.lt_trans (hl x hx) hk
  · exact hk

theorem findPlace_run : ∀ {fs : List (Frame ℕ)}, Zip key t fs m → Sorted key t.toList → Place key (key e) fs →
    ((∃ x ∈ t.toList, key x = key e) ∧ (findPlace e (above fs) (slot fs)).run m = some (none, m)) ∨
    ((∀ x ∈ t.toList, key x ≠ key e) ∧ ∃ gs, plug .nil gs = plug t fs ∧ Place key (key e) gs ∧
      (findPlace e (above fs) (slot fs)).run m = some (some (above gs, slot gs), m)) := by
  induction t with
  | nil =>
    intro fs hz hs hp
    refine .inr ⟨by simp [toList], fs, rfl, hp, ?_⟩
    rw [findPlace_eq, run_bind (loadSlot_run hz.path)]
    rfl
  | node c l a r ihl ihr =>
    intro fs hz hs hp
    obtain ⟨hl, hr, hla, hra⟩ := sorted_node hs
    rw [findPlace_eq, run_bind (loadSlot_run hz.path)]
    dsimp only [root]
    rw [run_bind (run_load m a), run_bind (run_load m e), hz.keys, hz.keys]
    by_cases h1 : key a = key e
    · rw [if_pos h1]
      exact .inl ⟨⟨a, by simp [toList], h1⟩, rfl⟩
    · rw [if_neg h1]
      by_cases h2 : key a > key e
      · rw [if_pos h2]
        refine (ihl (zip_near (s := .left) |>.mp hz) hl (hp.left hs h2)).imp ?_ ?_
        · rintro ⟨⟨x, hx, hk⟩, hrun⟩
          exact ⟨⟨x, by simp [toList, hx], hk⟩, hrun⟩
        · rintro ⟨hne, gs, hplug, hgs, hrun⟩
          refine ⟨fun x hx => ?_, gs, hplug, hgs, hrun⟩
          rcases mem_append.mp hx with hx | hx
          · exact hne x hx
          · rcases mem_cons.mp hx with rfl | hx
            · exact h1
            · have := hra x hx
              omega
      · rw [if_neg h2]
        have h3 : key a < key e := by omega
        refine (ihr (zip_far (s := .left) |>.mp hz) hr (hp.right hs h3)).imp ?_ ?_
        · rintro ⟨⟨x, hx, hk⟩, hrun⟩
          exact ⟨⟨x, by simp [toList, hx], hk⟩, hrun⟩
        · rintro ⟨hne, gs, hplug, hgs, hrun⟩
          refine ⟨fun x hx => ?_, gs, hplug, hgs, hrun⟩
          rcases mem_append.mp hx with hx | hx
          · have := hla x hx
            omega
          · rcases mem_cons.mp hx with rfl | hx
            · exact h1
            · exact hne x hx

theorem link_spec (he : e ∉ entries fs) :
    Does (Zip key .nil fs) (link e (above fs) (slot fs)) (fun _ => Zip key (.node .red .nil e .nil) fs) := by
  intro m hz
  have hn : (entries fs).Nodup := by simpa [toList] using hz.nodup
  let m' := (m.relink (some e) fs).upd e (fun x => x.setChild none .right)
    |>.upd e (fun x => x.setChild none .left)
    |>.upd e (fun x => x.setParent (above fs))
    |>.upd e (fun x => x.setCol .red)
  have hother : ∀ x, x ≠ e → m'.heap x = (m.relink (some e) fs).heap x := by
    intro x hx
    simp [m', heap_upd, hx]
  refine ⟨(), m', ?_, ?_, ?_, ?_, ?_⟩
  · rw [link, run_bind (storeSlot_run (some e) fs), run_bind (run_setChild ..),
      run_bind (run_setChild ..), run_bind (run_setParent ..)]
    rfl
  · intro x
    refine Eq.trans ?_ ((key_relink (some e) fs x).trans (hz.keys x))
    by_cases hx : x = e
    · simp [m', heap_upd, hx]
    · rw [hother x hx]
  · simp [Shape, m', heap_upd, root, Entry.setChild, Entry.setParent, Entry.setCol]
  · refine (hz.path.relink hn (some e)).congr rfl fun x hx => hother x ?_
    exact fun hxe => he (hxe ▸ hx)
  · simpa [toList, he] using hn

/-! ### Repair -/

/-- The memory holds a red-black tree with these entries. -/
def Repaired (key : ℕ → ℕ) (l : List ℕ) (m : Mem) : Prop :=
  ∃ t, Zip key t [] m ∧ t.Balanced ∧ t.toList = l

theorem Zip.repaired (hz : Zip key t fs m) (hb : t.Bal k) (hf : Fits fs t.col k) :
    Repaired key (plug t fs).toList m :=
  ⟨plug t fs, zip_plug.mp hz, balanced_plug.mpr ⟨k, hb, hf⟩, rfl⟩

/-- A test of the colours of the children, on either side. -/
theorem children_run (hz : Zip key (join s c n a f) fs m) {g : Bool → Bool → Bool} (hg : ∀ x y, g x y = g y x) :
    (do
      let e ← load (some a)
      let l ← isRed e.left
      let r ← isRed e.right
      pure (g l r) : M Bool).run m = some (g (decide (n.col = .red)) (decide (f.col = .red)), m) := by
  have hs := shape_join.mp hz.shape
  rw [run_bind (run_load m a)]
  cases s with
  | left =>
    have h1 : (m.heap a).left = n.root := hs.1
    have h2 : (m.heap a).right = f.root := hs.2.1
    rw [h1, h2, run_bind (isRed_run hs.2.2.2.2.1), run_bind (isRed_run hs.2.2.2.2.2)]
    rfl
  | right =>
    have h1 : (m.heap a).right = n.root := hs.1
    have h2 : (m.heap a).left = f.root := hs.2.1
    rw [h1, h2, run_bind (isRed_run hs.2.2.2.2.2), run_bind (isRed_run hs.2.2.2.2.1), hg]
    rfl

theorem bothRed_run (hz : Zip key (join s c n a f) fs m) :
    (bothRed (some a)).run m = some (decide (n.col = .red ∧ f.col = .red), m) := by
  rw [Bool.decide_and]
  exact children_run hz Bool.and_comm

/-- The colour of the grandparent: the root stays as it is. -/
def reddened (c : Color) : List (Frame ℕ) → Color
  | [] => c
  | _ :: _ => .red

theorem redden_spec : Does (Zip key (join s c n a f) fs) (redden (some a))
    (fun _ => Zip key (join s (reddened c fs) n a f) fs) := by
  intro m hz
  rw [redden, run_bind (run_loadRoot m), hz.root]
  cases fs with
  | nil =>
    rw [plug, root_join, if_neg (not_not.mpr rfl)]
    exact ⟨(), m, rfl, hz⟩
  | cons g fs =>
    have hne : some a ≠ (plug (join s c n a f) (g :: fs)).root := (root_plug_ne hz.apart.path).symm
    rw [if_pos hne]
    exact setCol_spec m hz

theorem paintChildren_spec {d : Color} :
    Does (Zip key (join s c (join s₁ c₁ n₁ x f₁) a (join s₂ c₂ n₂ y f₂)) fs) (paintChildren (some a) d)
      (fun _ => Zip key (join s c (join s₁ d n₁ x f₁) a (join s₂ d n₂ y f₂)) fs) := by
  intro m hz
  rw [paintChildren, run_bind (run_load m a)]
  have h1 := hz.child
  have h2 := hz.childOther
  rw [root_join] at h1 h2
  cases s with
  | left =>
    have hl : (m.heap a).left = some x := h1
    have hr : (m.heap a).right = some y := h2
    rw [hl, hr]
    exact (setCol_far.bind fun _ => setCol_near) m hz
  | right =>
    have hr : (m.heap a).right = some x := h1
    have hl : (m.heap a).left = some y := h2
    rw [hl, hr]
    exact (setCol_near.bind fun _ => setCol_far) m hz

theorem recolour_spec : Does (Zip key (join s c (join s₁ c₁ n₁ x f₁) a (join s₂ c₂ n₂ y f₂)) fs) (recolour (some a))
      (fun _ => Zip key (join s (reddened c fs) (join s₁ .black n₁ x f₁) a (join s₂ .black n₂ y f₂)) fs) :=
  redden_spec.bind fun _ => paintChildren_spec

/-- A rotation only if the lower node is on the inner side. -/
theorem straighten_run (hq : (m.heap q).child s = some p) (hq' : (m.heap q).child s.other ≠ some p)
    (hp : (m.heap p).child s' = some e) (hp' : (m.heap p).child s'.other ≠ some e) :
    (straighten (some e) (some p) (some q)).run m =
      if s' = s then some ((), m) else (rotate s (some p)).run m := by
  rw [straighten, run_bind (run_load m q), run_bind (run_load m p)]
  cases s <;> cases s' <;> simp only [Entry.child, Side.other] at hq hq' hp hp' <;>
    simp [hq, hq', hp, hp', rotateLeft, rotateRight]

/-- Two red nodes below each other, the lower one on the outer side of the upper one. -/
structure Lined (k : ℕ) (n f : RbTree ℕ) : Prop where
  near : n.Bal k
  red : n.col = .red
  far : f.Bal k
  black : f.col = .black

theorem straighten_spec (he : t.root = some e) (hl : Lined k t sib) :
    Does (Zip key (join s' .red t p sib) (⟨s, c, q, u⟩ :: fs)) (straighten (some e) (some p) (some q))
      (fun _ m => ∃ n x f, Lined k n f ∧ (join s .red n x f).toList = (join s' .red t p sib).toList ∧
        Zip key (join s .red n x f) (⟨s, c, q, u⟩ :: fs) m) := by
  intro m hz
  have hA := hz.apart
  have hq := hz.path.1
  have hq' := hz.path.2.1
  dsimp only at hq hq'
  rw [root_join] at hq
  have hpu : u.root ≠ some p := root_ne_of_notMem fun hm => hA.path (by simp [entries, hm])
  have hes : sib.root ≠ some e := root_ne_of_notMem (hA.nearFar e (mem_of_root he))
  rw [straighten_run hq (hq' ▸ hpu) (hz.child.trans he) (hz.childOther ▸ hes)]
  by_cases hs : s' = s
  · subst hs
    rw [if_pos rfl]
    exact ⟨(), m, rfl, t, p, sib, hl, rfl, hz⟩
  · rw [if_neg hs]
    obtain rfl : s' = s.other := by cases s <;> cases s' <;> trivial
    have hne : t ≠ .nil := by
      rintro rfl
      cases he
    obtain ⟨d, n, e', f, rfl⟩ := exists_join s hne
    obtain ⟨hn, hred, hf, hb⟩ := hl
    rw [col_join] at hred
    subst hred
    obtain ⟨hnb, hfb, hnk, hfk⟩ := bal_red.mp hn
    have hz' : Zip key (join s .red sib p (join s .red n e' f)) (⟨s, c, q, u⟩ :: fs) m := by
      rw [← join_other]
      exact hz
    obtain ⟨_, m', hrun, hm'⟩ := rotate_spec m hz'
    refine ⟨(), m', hrun, join s .red sib p n, e', f, ⟨?_, col_join .., hfk, hfb⟩, ?_, hm'⟩
    · exact bal_red.mpr ⟨hb, hnb, hf, hnk⟩
    · rw [toList_rotate, ← join_other s]

theorem raise_spec (hu : u.col = .black) : Does (Zip key (join s c (join s .red n x f) q u) fs) (raise (some q))
      (fun r m => r = some x ∧ Zip key (join s .red n x (join s c f q u)) fs m) := by
  intro m hz
  obtain ⟨h1, h2, -, -, hn, hf⟩ := shape_join.mp hz.shape
  -- the other child takes part in the rotation, so the tree is seen from the other side
  have hz' : Zip key (join s.other c u q (join s.other .red f x n)) fs m := by
    rw [join_other, join_other]
    exact hz
  obtain ⟨_, m', hrun, hm'⟩ := rotate_spec m hz'
  rw [join_other, join_other] at hm'
  refine ⟨some x, m', ?_, rfl, hm'⟩
  rw [raise, run_bind (run_load m q)]
  rw [root_join] at h1
  cases s with
  | left =>
    have hl : (m.heap q).left = (join .left .red n x f).root := by
      rw [root_join]
      exact h1
    rw [hl, run_bind (isRed_run hn), col_join, root_join]
    simp only [decide_true, if_true]
    rw [run_bind (show (rotateRight (some q)).run m = _ from hrun)]
    rfl
  | right =>
    have hl : (m.heap q).left = u.root := h2
    have hr : (m.heap q).right = some x := h1
    rw [hl, run_bind (isRed_run hf), hu, hr]
    simp only [reduceCtorEq, decide_false, Bool.false_eq_true, if_false]
    rw [run_bind (show (rotateLeft (some q)).run m = _ from hrun)]
    rfl

theorem rebalance_spec (he : t.root = some e) (hl : Lined k t sib) (hu : u.Bal k) (hc : u.col = .black)
    (hfs : Fits fs .black (k + 1)) :
    Does (Zip key (join s' .red t p sib) (⟨s, .black, q, u⟩ :: fs)) (rebalance (some e) (some p) (some q))
      (fun _ => Repaired key (plug (join s' .red t p sib) (⟨s, .black, q, u⟩ :: fs)).toList) := by
  refine (straighten_spec he hl).bind fun _ => ?_
  rintro m ⟨n, x, f, hl, hlist, hz⟩
  have hne : n ≠ .nil := by
    rintro rfl
    cases hl.red
  obtain ⟨d, n₁, y, n₂, rfl⟩ := exists_join s hne
  have hd : d = .red := (col_join ..).symm.trans hl.red
  subst hd
  -- the tree once it is repaired
  have hbal : (join s .black (join s .red n₁ y n₂) x (join s .red f q u)).Bal (k + 1) := by
    refine bal_black.mpr ⟨k, rfl, hl.near, bal_red.mpr ⟨hl.black, hc, hl.far, hu⟩⟩
  have heq : (plug (join s .black (join s .red n₁ y n₂) x (join s .red f q u)) fs).toList =
      (plug (join s' .red t p sib) (⟨s, .black, q, u⟩ :: fs)).toList := by
    rw [plug, toList_plug, toList_plug, Frame.plug]
    dsimp only
    have h : (join s .black (join s .red n₁ y n₂) x (join s .red f q u)).toList =
        (join s .black (join s' .red t p sib) q u).toList := by
      cases s <;> simp only [join, toList] at hlist ⊢ <;> simp [← hlist]
    rw [h]
  refine ((raise_spec hc).bind fun r => Does.pull ?_) m (zip_near.mpr hz)
  rintro rfl
  refine setCol_spec.bind fun _ => paintChildren_spec.bind fun _ => ?_
  intro m hz
  have hb : (plug _ fs).Balanced := balanced_plug.mpr ⟨k + 1, hbal, by rwa [col_join]⟩
  obtain ⟨r, hr⟩ : ∃ r, m.root = some r := by
    rw [hz.root, ← Option.ne_none_iff_exists', Ne, root_eq_none]
    intro hnil
    have h := toList_plug (join s .black (join s .red n₁ y n₂) x (join s .red f q u)) fs
    rw [hnil] at h
    cases s <;> simp [toList, join] at h
  refine ⟨(), m, ?_, heq ▸ hz.repaired hbal (by rwa [col_join])⟩
  rw [run_bind (run_loadRoot m), hr, setCol_root hz hb hr]

/-- The colours are repaired on the way up. -/
theorem insertFixup_spec {c : Color} {a k : ℕ} (fs : List (Frame ℕ)) (hc : fs = [] ∨ c = .red)
    (hb : (RbTree.node .red l a r).Bal k) (hf : Fits fs .black k) :
    Does (Zip key (.node c l a r) fs) (insertFixup (some a) (above fs))
      (fun _ => Repaired key (plug (.node c l a r) fs).toList) := by
  induction hlen : fs.length using Nat.strong_induction_on generalizing fs c l r a k with
  | _ len ih =>
  cases fs with
  | nil =>
    intro m hz
    have hz' : Zip key (join .left .black l a r) [] _ := Zip.setCol (s := .left) hz .black
    refine ⟨(), _, ?_, hz'.repaired (Bal.blacken (s := .left) hb) rfl⟩
    rw [above, insertFixup_none, run_setCol]
  | cons f fs =>
    obtain rfl : c = .red := hc.resolve_left (by simp)
    obtain ⟨hfc, hfb, hff⟩ := hf
    intro m hz
    obtain ⟨-, -, hp, hcol, -, -⟩ := hz.path
    rw [above, insertFixup_some, run_bind (run_load m f.entry), hcol, hp]
    cases hfcol : f.col with
    | black =>
      rw [if_pos rfl]
      refine ⟨(), m, rfl, hz.repaired hb ⟨fun h => ?_, hfb, hff⟩⟩
      rw [hfcol] at h
      cases h
    | red =>
      rw [if_neg (by simp)]
      rw [hfcol] at hff
      obtain ⟨g, gs, rfl, hg, hgb, hgf⟩ := hff.red
      obtain ⟨s', _, p, sib⟩ := f
      obtain ⟨s, _, q, u⟩ := g
      dsimp only at hfcol hg hfb hgb hfc
      subst hfcol hg
      have hsib : sib.col = .black := (hfc rfl).2
      have hz₂ : Zip key (join s .black (join s' .red (.node .red l a r) p sib) q u) gs m :=
        zip_frame.mp (zip_frame.mp hz)
      dsimp only [above]
      rw [run_bind (bothRed_run hz₂), col_join]
      cases hu : u.col with
      | black =>
        simp only [reduceCtorEq, and_false, decide_false, Bool.false_eq_true, if_false]
        exact rebalance_spec rfl ⟨hb, rfl, hfb, hsib⟩ hgb hu hgf m (zip_frame.mp hz)
      | red =>
        simp only [and_self, decide_true, if_true]
        have hne : u ≠ .nil := by
          rintro rfl
          cases hu
        obtain ⟨d, u₁, y, u₂, rfl⟩ := exists_join s hne
        rw [col_join] at hu
        subst hu
        -- the grandparent takes the place of the new entry
        obtain ⟨l', r', hnode⟩ := exists_node s (join s' .black (.node .red l a r) p sib) q (join s .black u₁ y u₂)
        have hgp : (join s .red (join s' .black (.node .red l a r) p sib) q
            (join s .black u₁ y u₂)).Bal (k + 1) := by
          refine bal_red.mpr ⟨col_join .., col_join .., ?_, hgb.blacken⟩
          exact bal_black.mpr ⟨k, rfl, hb, hfb⟩
        have htop : gs = [] ∨ reddened .black gs = .red := by
          cases gs with
          | nil => exact .inl rfl
          | cons => exact .inr rfl
        have hlist : (plug (.node (reddened .black gs) l' q r') gs).toList =
            (plug (.node .red l a r) (⟨s', .red, p, sib⟩ :: ⟨s, .black, q, join s .red u₁ y u₂⟩ :: gs)).toList := by
          rw [← hnode, plug, plug, toList_plug, toList_plug]
          cases s <;> cases s' <;> simp [Frame.plug, join, toList]
        refine (recolour_spec.bind fun _ => ?_) m hz₂
        intro m' hz'
        rw [run_bind (run_load m' q), hz'.parent]
        rw [hnode] at hgp hz'
        rw [← hlist]
        exact ih gs.length (by rw [← hlen, length_cons, length_cons]; omega) gs htop hgp hgf rfl m' hz'

/-! ### Insertion -/

theorem sorted_insert {l₁ l₂ : List ℕ} (hs : Sorted key (l₁ ++ l₂)) (h₁ : ∀ x ∈ l₁, key x < key e)
    (h₂ : ∀ x ∈ l₂, key e < key x) : Sorted key (l₁ ++ e :: l₂) := by
  obtain ⟨hl₁, hl₂, hl⟩ := pairwise_append.mp hs
  refine pairwise_append.mpr ⟨hl₁, pairwise_cons.mpr ⟨h₂, hl₂⟩, fun x hx y hy => ?_⟩
  rcases mem_cons.mp hy with rfl | hy
  · exact h₁ x hx
  · exact hl x hx y hy

/-- `rb_insert_entry` on a red-black tree. -/
theorem rbInsertEntry_run (hz : Zip key t [] m) (hs : Sorted key t.toList) (hb : t.Balanced) :
    ((∃ x ∈ t.toList, key x = key e) ∧ (rbInsertEntry e).run m = some (0, m)) ∨
    ((∀ x ∈ t.toList, key x ≠ key e) ∧ ∃ m' t', (rbInsertEntry e).run m = some (1, m') ∧
      Zip key t' [] m' ∧ t'.Balanced ∧ Sorted key t'.toList ∧ t'.toList.Perm (e :: t.toList)) := by
  have hplace : Place key (key e) [] := by constructor <;> intro x hx <;> cases hx
  rcases findPlace_run hz hs hplace with ⟨hx, hrun⟩ | ⟨hx, gs, hplug, hgs, hrun⟩
  · refine .inl ⟨hx, ?_⟩
    have hstart : (findPlace e none .root).run m = some (none, m) := hrun
    rw [rbInsertEntry, run_bind hstart]
    rfl
  · refine .inr ⟨hx, ?_⟩
    have hstart : (findPlace e none .root).run m = some (some (above gs, slot gs), m) := hrun
    replace hplug : plug .nil gs = t := hplug
    have hlist : t.toList = before gs ++ after gs := by
      rw [← hplug, toList_plug]
      simp [toList]
    have he : e ∉ entries gs := by
      intro hm
      refine hx e ?_ rfl
      rw [← hplug]
      exact (perm_plug .nil gs).mem_iff.mpr (by simpa [toList] using hm)
    have hz' : Zip key .nil gs m := by
      rw [zip_plug, hplug]
      exact hz
    obtain ⟨k, hk, hf⟩ : ∃ k, (RbTree.nil : RbTree ℕ).Bal k ∧ Fits gs .black k := by
      rw [← hplug] at hb
      exact balanced_plug.mp hb
    have hleaf : (RbTree.node .red .nil e .nil).Bal k := bal_red (s := .left) |>.mpr ⟨rfl, rfl, hk, hk⟩
    obtain ⟨_, m', hrun', t', ht', hbal, htl⟩ :=
      ((link_spec he).bind fun _ => insertFixup_spec gs (.inr rfl) hleaf hf) m hz'
    have htl' : t'.toList = before gs ++ e :: after gs := by
      rw [htl, toList_plug]
      simp [toList]
    refine ⟨m', t', ?_, ht', hbal, ?_, ?_⟩
    · rw [rbInsertEntry, run_bind hstart]
      dsimp only
      rw [← bind_assoc, run_bind hrun']
      rfl
    · rw [htl']
      rw [hlist] at hs
      exact sorted_insert hs hgs.before hgs.after
    · rw [htl', hlist]
      exact perm_middle

end Anoubis.Apn.RbTree

import Anoubis.Apn.RbInsert

/-! Repair of the tree behind a removal.

    One subtree `t` of `p` lacks a black node on all paths; `w` is its sibling.

        case 1  : w red                         rotate, then the sibling is black
        case 2  : children of w black           paint w red, go on at the parent if p is black
        case 3a : outer child of w black        rotate at w
        case 3b : outer child of w red          rotate at p   -/

namespace Anoubis.Apn.RbTree

open Anoubis.Lib Anoubis.Lib.RbTree

variable {key : ℕ → ℕ} {m : Mem} {t w n f : RbTree ℕ} {fs : List (Frame ℕ)} {s : Side} {c : Color}
  {a p k : ℕ}

/-- The subtree `t` below a node of colour `c` lacks a black node, its sibling `w` does not. -/
structure Lacks (k : ℕ) (t : RbTree ℕ) (c : Color) (w : RbTree ℕ) : Prop where
  short : t.Bal k
  black : t.col = .black
  sibling : w.Bal (k + 1)
  red : c = .red → w.col = .black

/-- Case 1. -/
theorem removeRed_spec (hl : Lacks k t c w) (hf : Fits fs c (k + 1 + c.weight)) :
    Does (Zip key (join s c t p w) fs) (removeRed s (some p)) (fun _ m => ∃ c' w' fs',
      (Lacks k t c' w' ∧ w'.col = .black ∧ Fits fs' c' (k + 1 + c'.weight) ∧ (c' = .red ∨ fs' = fs)) ∧
      (plug (join s c' t p w') fs').toList = (plug (join s c t p w) fs).toList ∧
      Zip key (join s c' t p w') fs' m) := by
  intro m hz
  obtain ⟨d, wl, x, wr, rfl⟩ := exists_join s hl.sibling.ne_nil
  have hz' := zip_far.mp hz
  rw [removeRed, run_bind (run_load m p), hz.childOther, root_join, run_bind (run_load m x), hz'.col]
  cases d with
  | black =>
    rw [if_neg (by simp)]
    exact ⟨(), m, rfl, c, _, fs, ⟨hl, col_join .., hf, .inr rfl⟩, rfl, hz⟩
  | red =>
    have hc : c = .black := by
      cases c with
      | black => rfl
      | red => exact nomatch (col_join ..).symm.trans (hl.red rfl)
    subst hc
    rw [if_pos rfl]
    obtain ⟨hwlc, hwrc, hwl, hwr⟩ := bal_red.mp hl.sibling
    obtain ⟨_, m', hrun, hm'⟩ := (setCol_far.bind fun _ => setCol_spec.bind fun _ => rotate_spec) m hz
    refine ⟨(), m', hrun, .red, wl, ⟨s, .black, x, wr⟩ :: fs, ⟨?_, hwlc, ?_, .inl rfl⟩, ?_, zip_near.mp hm'⟩
    · exact ⟨hl.short, hl.black, hwl, fun _ => hwlc⟩
    · exact ⟨fun h => (nomatch h), hwr, hf⟩
    · rw [plug, toList_plug, toList_plug, Frame.plug]
      dsimp only
      rw [toList_rotate, toList_join_col s .red .black]
      cases s <;> rfl

theorem childrenBlack_run (hz : Zip key (join s c n a f) fs m) :
    (childrenBlack (some a)).run m = some (decide (n.col = .black ∧ f.col = .black), m) := by
  have hnot : ∀ t : RbTree ℕ, decide (t.col = .black) = !decide (t.col = .red) := by
    intro t
    cases t.col <;> rfl
  rw [Bool.decide_and, hnot, hnot]
  exact children_run hz fun x y => Bool.and_comm (!x) (!y)

theorem removeBlack_run {x : ℕ} (hz : Zip key (join s c t p (join s .black n x f)) fs m) :
    (removeBlack s (some p)).run m = some (decide (n.col = .black ∧ f.col = .black), m) := by
  have hz' := zip_far.mp hz
  rw [removeBlack, run_bind (run_load m p), hz.childOther, root_join, run_bind (run_load m x),
    run_bind (childrenBlack_run hz'), hz'.col]
  simp only [decide_true, Bool.true_and]
  rfl

/-- Case 2. -/
theorem removeRecolour_spec {x : ℕ} :
    Does (Zip key (join s c t p (join s .black n x f)) fs) (removeRecolour s (some p))
      (fun r m => r = decide (c = .black) ∧ Zip key (join s .black t p (join s .red n x f)) fs m) := by
  intro m hz
  rw [removeRecolour, run_bind (run_load m p), hz.childOther, root_join, hz.col]
  cases c with
  | black =>
    rw [if_pos rfl]
    exact (setCol_far.bind fun _ => Does.pure fun m hm => ⟨rfl, hm⟩) m hz
  | red =>
    rw [if_neg (by simp)]
    exact (setCol_far.bind fun _ => setCol_spec.bind fun _ => Does.pure fun m hm => ⟨rfl, hm⟩) m hz

/-- The sibling in case 3b: black, with a red child on the outer side. -/
structure Outer (k : ℕ) (n f : RbTree ℕ) : Prop where
  inner : n.Bal k
  outer : f.Bal k
  red : f.col = .red

/-- Case 3a. -/
theorem removeTurn_spec {x : ℕ} (hn : n.Bal k) (hf : f.Bal k) (hred : ¬ (n.col = .black ∧ f.col = .black)) :
    Does (Zip key (join s c t p (join s .black n x f)) fs) (removeTurn s (some p))
      (fun _ m => ∃ n' x' f', Outer k n' f' ∧ (join s .black n' x' f').toList = (join s .black n x f).toList ∧
        Zip key (join s c t p (join s .black n' x' f')) fs m) := by
  intro m hz
  have hz' := zip_far.mp hz
  have hs := shape_join.mp hz'.shape
  rw [removeTurn, run_bind (run_load m p), hz.childOther, root_join, run_bind (run_load m x), hs.2.1,
    run_bind (isBlack_run hs.2.2.2.2.2)]
  cases hfc : f.col with
  | red =>
    simp only [reduceCtorEq, decide_false, Bool.false_eq_true, if_false]
    exact ⟨(), m, rfl, n, x, f, ⟨hn, hf, hfc⟩, rfl, hz⟩
  | black =>
    simp only [decide_true, if_true]
    have hnc : n.col = .red := by
      cases h : n.col with
      | red => rfl
      | black => exact absurd ⟨h, hfc⟩ hred
    have hne : n ≠ .nil := by
      rintro rfl
      cases hnc
    obtain ⟨d, n₁, y, n₂, rfl⟩ := exists_join s hne
    rw [col_join] at hnc
    subst hnc
    obtain ⟨h1c, h2c, h1, h2⟩ := bal_red.mp hn
    -- the rotation at the sibling, which is seen from the other side
    have hrot : Does (Zip key (join s c t p (join s .black (join s .red n₁ y n₂) x f)) fs) (rotate s.other (some x))
        (fun _ => Zip key (join s c t p (join s .red n₁ y (join s .black n₂ x f))) fs) := by
      intro m hz
      have hz' := zip_far.mp hz
      rw [← join_other s .black, ← join_other s .red] at hz'
      obtain ⟨_, m', hrun, hm'⟩ := rotate_spec m hz'
      rw [join_other, join_other] at hm'
      exact ⟨(), m', hrun, zip_far.mpr hm'⟩
    obtain ⟨_, m₁, hrun₁, hz₁⟩ := hrot m hz
    rw [run_bind hrun₁, run_bind (run_load m₁ p), hz₁.childOther, root_join]
    obtain ⟨_, m₂, hrun₂, hz₂⟩ := setCol_far (d := .black) m₁ hz₁
    rw [run_bind hrun₂, run_bind (run_load m₂ y), (zip_far.mp hz₂).childOther, root_join]
    have hpaint : Does (Zip key (join s c t p (join s .black n₁ y (join s .black n₂ x f))) fs)
        (setCol (some x) .red)
        (fun _ => Zip key (join s c t p (join s .black n₁ y (join s .red n₂ x f))) fs) :=
      setCol_far.congr (fun _ => zip_far) fun _ => zip_far
    obtain ⟨_, m₃, hrun₃, hz₃⟩ := hpaint m₂ hz₂
    refine ⟨(), m₃, hrun₃, n₁, y, join s .red n₂ x f, ⟨h1, ?_, col_join ..⟩, ?_, hz₃⟩
    · exact bal_red.mpr ⟨h2c, hfc, h2, hf⟩
    · cases s <;> simp [join, toList]

/-- Case 3b. -/
theorem removeLift_spec {x : ℕ} (ho : Outer k n f) (ht : t.Bal k) :
    Does (Zip key (join s c t p (join s .black n x f)) fs) (removeLift s (some p))
      (fun _ m => ∃ u, u.Bal (k + 1 + c.weight) ∧ u.col = c ∧
        u.toList = (join s c t p (join s .black n x f)).toList ∧ Zip key u fs m) := by
  intro m hz
  have hne : f ≠ .nil := by
    rintro rfl
    cases ho.red
  obtain ⟨d, f₁, y, f₂, rfl⟩ := exists_join s hne
  have hd : d = .red := (col_join ..).symm.trans ho.red
  subst hd
  rw [removeLift, run_bind (run_load m p), hz.childOther, root_join, run_bind (run_load m x),
    (zip_far.mp hz).childOther, root_join, hz.col]
  have hpaint : Does (Zip key (join s c t p (join s .black n x (join s .red f₁ y f₂))) fs) (setCol (some y) .black)
      (fun _ => Zip key (join s c t p (join s .black n x (join s .black f₁ y f₂))) fs) :=
    setCol_far.congr (fun _ => zip_far) fun _ => zip_far
  obtain ⟨_, m', hrun, hm'⟩ := (hpaint.bind fun _ => setCol_far.bind fun _ => setCol_spec.bind fun _ =>
    rotate_spec) m hz
  refine ⟨(), m', hrun, _, ?_, col_join .., ?_, hm'⟩
  · refine bal_join (bal_black.mpr ⟨k, rfl, ht, ho.inner⟩) ho.outer.blacken fun _ => ?_
    exact ⟨col_join .., col_join ..⟩
  · cases s <;> simp [join, toList]

/-- A black root is not painted again. -/
theorem blackRoot_run (hz : Zip key t fs m) (hb : (plug t fs).Balanced) : blackRoot.run m = some ((), m) := by
  rw [blackRoot, run_bind (run_loadRoot m)]
  cases hr : m.root with
  | none => rfl
  | some r => exact setCol_root hz hb hr

/-- The side on which an entry is. -/
theorem side_eq {g : Frame ℕ} {e : ℕ} (hz : Zip key t (g :: fs) m) (he : t.root = some e) :
    (if (m.heap g.entry).left = some e then Side.left else .right) = g.side := by
  obtain ⟨h1, h2, -⟩ := hz.path
  obtain ⟨s, c, q, sib⟩ := g
  dsimp only at h1 h2 ⊢
  cases s with
  | left =>
    have hl : (m.heap q).left = some e := h1.trans he
    rw [if_pos hl]
  | right =>
    have hl : (m.heap q).left = sib.root := h2
    have hne : sib.root ≠ some e := root_ne_of_notMem fun hm =>
      (List.nodup_append.mp hz.nodup).2.2 e (mem_of_root he) e (by simp [entries, hm]) rfl
    rw [hl, if_neg hne]

/-- The missing black node is supplied on the way up. -/
theorem removeFixup_spec {s : Side} {c : Color} {t w : RbTree ℕ} {p k : ℕ} (fs : List (Frame ℕ))
    (hl : Lacks k t c w) (hf : Fits fs c (k + 1 + c.weight)) : Does (Zip key (join s c t p w) fs) (removeFixup s p)
      (fun _ => Repaired key (plug (join s c t p w) fs).toList) := by
  induction hlen : fs.length using Nat.strong_induction_on generalizing fs s c t w p k with
  | _ len ih =>
  rw [removeFixup_eq]
  refine (removeRed_spec hl hf).bind fun _ => ?_
  rintro m ⟨c', w', fs', ⟨hl', hw', hf', hfs⟩, hlist, hz⟩
  rw [← hlist]
  obtain ⟨d, n, x, f, rfl⟩ := exists_join s hl'.sibling.ne_nil
  rw [col_join] at hw'
  subst hw'
  obtain ⟨j, hj, hn, hfb⟩ := bal_black.mp hl'.sibling
  obtain rfl : j = k := by omega
  rw [run_bind (removeBlack_run hz)]
  by_cases hblack : n.col = .black ∧ f.col = .black
  · simp only [hblack, and_self, decide_true, if_true]
    obtain ⟨_, m₁, hrun₁, rfl, hz₁⟩ := removeRecolour_spec m hz
    rw [run_bind hrun₁]
    have hu : (join s .black t p (join s .red n x f)).Bal (j + 1) :=
      bal_black.mpr ⟨j, rfl, hl'.short, bal_red.mpr ⟨hblack.1, hblack.2, hn, hfb⟩⟩
    have hsame : (plug (join s .black t p (join s .red n x f)) fs').toList =
        (plug (join s c' t p (join s .black n x f)) fs').toList := by
      rw [toList_plug, toList_plug]
      cases s <;> rfl
    rw [← hsame]
    cases c' with
    | red =>
      simp only [reduceCtorEq, decide_false, Bool.false_eq_true, if_false]
      exact ⟨(), m₁, rfl, hz₁.repaired hu (by rw [col_join]; exact hf'.black)⟩
    | black =>
      obtain rfl : fs' = fs := hfs.resolve_left (by simp)
      simp only [decide_true, if_true]
      rw [run_bind (run_load m₁ p), hz₁.parent]
      cases fs' with
      | nil =>
        exact ⟨(), m₁, rfl, hz₁.repaired hu (col_join ..)⟩
      | cons g gs =>
        dsimp only [above]
        obtain ⟨hgc, hgb, hgf⟩ := hf'
        rw [run_bind (run_load m₁ g.entry), side_eq hz₁ (root_join ..)]
        refine ih gs.length (by simp [← hlen]) gs ⟨hu, col_join .., hgb, fun h => (hgc h).2⟩ hgf rfl m₁ ?_
        exact zip_frame.mp hz₁
  · simp only [hblack, decide_false, Bool.false_eq_true, if_false]
    refine ((removeTurn_spec hn hfb hblack).bind fun _ => ?_) m hz
    rintro m₁ ⟨n', x', f', ho, hlist₁, hz₁⟩
    refine ((removeLift_spec ho hl'.short).bind fun _ => ?_) m₁ hz₁
    rintro m₂ ⟨u, hu, huc, hlist₂, hz₂⟩
    have hfit : Fits fs' u.col (j + 1 + c'.weight) := by
      rw [huc]
      exact hf'
    refine ⟨(), m₂, blackRoot_run hz₂ (balanced_plug.mpr ⟨_, hu, hfit⟩), ?_⟩
    have hsame : (plug u fs').toList = (plug (join s c' t p (join s .black n x f)) fs').toList := by
      rw [toList_plug, toList_plug, hlist₂]
      cases s <;> simp only [join, toList] at hlist₁ ⊢ <;> rw [hlist₁]
    rw [← hsame]
    exact hz₂.repaired hu hfit

end Anoubis.Apn.RbTree

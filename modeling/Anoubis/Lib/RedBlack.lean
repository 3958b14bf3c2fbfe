import Mathlib.Data.List.Nodup

/-! Red-black trees with a hole.

    Algorithms that change a tree in place work at one node and walk towards the root. A tree `t` at the
    end of a path of frames stands for the whole tree `plug t path`.

        join s c near a far :      a            near is the child on side s
                               /   \
                            near   far

    `Bal t n` says that no red node of `t` has a red child and that every path to a leaf has `n` black
    nodes; `Fits path c n` says that a balanced tree with a root of colour `c` and `n` black nodes on
    every path may stand at the end of `path`. -/

namespace Anoubis.Lib

open List

inductive Side where
  | left
  | right
  deriving DecidableEq

def Side.other : Side → Side
  | .left => .right
  | .right => .left

inductive Color where
  | red
  | black
  deriving DecidableEq

/-- What a node adds to the number of black nodes. -/
def Color.weight : Color → ℕ
  | .red => 0
  | .black => 1

inductive RbTree (α : Type) where
  | nil
  | node (c : Color) (l : RbTree α) (a : α) (r : RbTree α)

namespace RbTree

variable {α β : Type}

/-- A node seen from one side. -/
def join (s : Side) (c : Color) (near : RbTree α) (a : α) (far : RbTree α) : RbTree α :=
  match s with
  | .left => node c near a far
  | .right => node c far a near

/-- The colour of the root; the empty tree counts as black. -/
def col : RbTree α → Color
  | nil => .black
  | node c _ _ _ => c

/-- The entry at the root. -/
def root : RbTree α → Option α
  | nil => none
  | node _ _ a _ => some a

/-- The entries in order. -/
def toList : RbTree α → List α
  | nil => []
  | node _ l a r => l.toList ++ a :: r.toList

def map (f : α → β) : RbTree α → RbTree β
  | nil => nil
  | node c l a r => node c (l.map f) (f a) (r.map f)

variable (s : Side)

@[simp] theorem col_join (c : Color) (n : RbTree α) (a : α) (f : RbTree α) :
    (join s c n a f).col = c := by cases s <;> rfl

@[simp] theorem root_join (c : Color) (n : RbTree α) (a : α) (f : RbTree α) :
    (join s c n a f).root = some a := by cases s <;> rfl

theorem join_other (c : Color) (n : RbTree α) (a : α) (f : RbTree α) :
    join s.other c f a n = join s c n a f := by cases s <;> rfl

theorem mem_join {s : Side} {c : Color} {n f : RbTree α} {a x : α} :
    x ∈ (join s c n a f).toList ↔ x = a ∨ x ∈ n.toList ∨ x ∈ f.toList := by
  cases s <;> simp only [join, toList, mem_append, mem_cons] <;> tauto

/-- A tree that is not empty, seen from one side. -/
theorem exists_join : ∀ {t : RbTree α}, t ≠ nil → ∃ c n a f, t = join s c n a f
  | nil, h => absurd rfl h
  | node c l a r, _ => by
    cases s with
    | left => exact ⟨c, l, a, r, rfl⟩
    | right => exact ⟨c, r, a, l, rfl⟩

theorem exists_node (n : RbTree α) (a : α) (f : RbTree α) :
    ∃ l r, ∀ c, join s c n a f = node c l a r := by
  cases s with
  | left => exact ⟨n, f, fun _ => rfl⟩
  | right => exact ⟨f, n, fun _ => rfl⟩

theorem mem_of_root {t : RbTree α} {a : α} (h : t.root = some a) : a ∈ t.toList := by
  cases t with
  | nil => cases h
  | node c l b r =>
    cases h
    simp [toList]

theorem root_eq_none {t : RbTree α} : t.root = none ↔ t = nil := by
  cases t with
  | nil => simp [root]
  | node c l a r => simp [root]

/-- A rotation: the far child takes the place of its parent. -/
theorem toList_rotate (c d : Color) (l : RbTree α) (e : α) (rl : RbTree α) (r : α) (rr : RbTree α) :
    (join s d (join s c l e rl) r rr).toList = (join s c l e (join s d rl r rr)).toList := by
  cases s <;> simp [join, toList]

/-- The colour of the root does not matter for the order. -/
theorem toList_join_col (c d : Color) (n : RbTree α) (a : α) (f : RbTree α) :
    (join s c n a f).toList = (join s d n a f).toList := by cases s <;> rfl

theorem toList_map (f : α → β) (t : RbTree α) : (t.map f).toList = t.toList.map f := by
  induction t with
  | nil => rfl
  | node c l a r ihl ihr => simp [map, toList, ihl, ihr]

@[simp] theorem col_map (f : α → β) (t : RbTree α) : (t.map f).col = t.col := by cases t <;> rfl

theorem root_map (f : α → β) (t : RbTree α) : (t.map f).root = t.root.map f := by cases t <;> rfl

/-! ### Balance -/

/-- No red node has a red child. -/
def NoRedRed : RbTree α → Prop
  | nil => True
  | node c l _ r => (c = .red → l.col = .black ∧ r.col = .black) ∧ l.NoRedRed ∧ r.NoRedRed

/-- Every path from the root to a leaf has `n` black nodes. -/
def BlackHeight : RbTree α → ℕ → Prop
  | nil, n => n = 0
  | node c l _ r, n => ∃ k, n = k + c.weight ∧ l.BlackHeight k ∧ r.BlackHeight k

/-- Both together. -/
def Bal : RbTree α → ℕ → Prop
  | nil, n => n = 0
  | node c l _ r, n =>
    (c = .red → l.col = .black ∧ r.col = .black) ∧ ∃ k, n = k + c.weight ∧ l.Bal k ∧ r.Bal k

theorem bal_iff {t : RbTree α} : ∀ {n : ℕ}, t.Bal n ↔ t.NoRedRed ∧ t.BlackHeight n := by
  induction t with
  | nil => simp [Bal, NoRedRed, BlackHeight]
  | node c l a r ihl ihr =>
    intro n
    simp only [Bal, NoRedRed, BlackHeight, ihl, ihr]
    constructor
    · rintro ⟨hc, k, hn, ⟨hl, hl'⟩, hr, hr'⟩
      exact ⟨⟨hc, hl, hr⟩, k, hn, hl', hr'⟩
    · rintro ⟨⟨hc, hl, hr⟩, k, hn, hl', hr'⟩
      exact ⟨hc, k, hn, ⟨hl, hl'⟩, hr, hr'⟩

/-- A red-black tree: the root is black and the tree is balanced. -/
def Balanced (t : RbTree α) : Prop := t.col = .black ∧ ∃ n, t.Bal n

@[simp] theorem bal_nil {n : ℕ} : (nil : RbTree α).Bal n ↔ n = 0 := .rfl

theorem bal_red {s : Side} {n f : RbTree α} {a : α} {k : ℕ} :
    (join s .red n a f).Bal k ↔ n.col = .black ∧ f.col = .black ∧ n.Bal k ∧ f.Bal k := by
  cases s <;> simp only [join, Bal, Color.weight, forall_const, Nat.add_zero, exists_eq_left', and_assoc]
  tauto

theorem bal_black {s : Side} {n f : RbTree α} {a : α} {k : ℕ} :
    (join s .black n a f).Bal k ↔ ∃ j, k = j + 1 ∧ n.Bal j ∧ f.Bal j := by
  cases s <;> simp only [join, Bal, Color.weight, reduceCtorEq, false_implies, true_and]
  exact exists_congr fun j => and_congr_right fun _ => and_comm

theorem bal_join {s : Side} {c : Color} {n f : RbTree α} {a : α} {k : ℕ} (hn : n.Bal k) (hf : f.Bal k)
    (hc : c = .red → n.col = .black ∧ f.col = .black) : (join s c n a f).Bal (k + c.weight) := by
  cases c with
  | red => exact bal_red.mpr ⟨(hc rfl).1, (hc rfl).2, hn, hf⟩
  | black => exact bal_black.mpr ⟨k, rfl, hn, hf⟩

/-- A red root may be painted black. -/
theorem Bal.blacken {s : Side} {n f : RbTree α} {a : α} {k : ℕ} (h : (join s .red n a f).Bal k) :
    (join s .black n a f).Bal (k + 1) := by
  obtain ⟨-, -, hn, hf⟩ := bal_red.mp h
  exact bal_black.mpr ⟨k, rfl, hn, hf⟩

/-- With a black node on every path the tree is not empty. -/
theorem Bal.ne_nil {t : RbTree α} {n : ℕ} (h : t.Bal (n + 1)) : t ≠ nil := by
  rintro rfl
  simp at h

/-- Without black nodes a tree is empty or a red leaf. -/
theorem Bal.eq_nil {t : RbTree α} (h : t.Bal 0) (hc : t.col = .black) : t = nil := by
  cases t with
  | nil => rfl
  | node c l a r =>
    simp only [col] at hc
    subst hc
    obtain ⟨-, k, hk, -⟩ := h
    simp [Color.weight] at hk

theorem bal_map {f : α → β} {t : RbTree α} : ∀ {n : ℕ}, (t.map f).Bal n ↔ t.Bal n := by
  induction t with
  | nil => simp [map]
  | node c l a r ihl ihr =>
    intro n
    simp only [map, Bal, col_map, ihl, ihr]

/-! ### Paths -/

/-- A node above the hole: the hole is below its child on side `side`. -/
structure Frame (α : Type) where
  side : Side
  col : Color
  entry : α
  sib : RbTree α

def Frame.plug (f : Frame α) (t : RbTree α) : RbTree α := join f.side f.col t f.entry f.sib

def Frame.map (g : α → β) (f : Frame α) : Frame β := ⟨f.side, f.col, g f.entry, f.sib.map g⟩

/-- Put a tree at the end of a path; the first frame is the innermost one. -/
def plug (t : RbTree α) : List (Frame α) → RbTree α
  | [] => t
  | f :: fs => plug (f.plug t) fs

/-- The entry above the hole. -/
def above : List (Frame α) → Option α
  | [] => none
  | f :: _ => some f.entry

/-- All entries of a path. -/
def entries : List (Frame α) → List α
  | [] => []
  | f :: fs => f.entry :: f.sib.toList ++ entries fs

/-- The entries in front of the hole. -/
def before : List (Frame α) → List α
  | [] => []
  | ⟨.left, _, _, _⟩ :: fs => before fs
  | ⟨.right, _, a, sib⟩ :: fs => before fs ++ (sib.toList ++ [a])

/-- The entries behind the hole. -/
def after : List (Frame α) → List α
  | [] => []
  | ⟨.left, _, a, sib⟩ :: fs => a :: sib.toList ++ after fs
  | ⟨.right, _, _, _⟩ :: fs => after fs

theorem toList_plug (t : RbTree α) (fs : List (Frame α)) :
    (plug t fs).toList = before fs ++ t.toList ++ after fs := by
  induction fs generalizing t with
  | nil => simp [plug, before, after]
  | cons f fs ih =>
    obtain ⟨s, c, a, sib⟩ := f
    rw [plug, ih]
    cases s <;> simp [Frame.plug, join, toList, before, after]

theorem perm_plug (t : RbTree α) (fs : List (Frame α)) : (plug t fs).toList.Perm (t.toList ++ entries fs) := by
  induction fs generalizing t with
  | nil => simp [plug, entries]
  | cons f fs ih =>
    obtain ⟨s, c, a, sib⟩ := f
    refine (ih _).trans ?_
    rw [entries, ← append_assoc]
    refine List.Perm.append_right _ ?_
    cases s with
    | left => rfl
    | right =>
      change (sib.toList ++ a :: t.toList).Perm (t.toList ++ a :: sib.toList)
      have h₁ : (sib.toList ++ a :: t.toList).Perm (a :: t.toList ++ sib.toList) := perm_append_comm
      exact h₁.trans perm_middle.symm

theorem plug_map (g : α → β) (t : RbTree α) (fs : List (Frame α)) :
    (plug t fs).map g = plug (t.map g) (fs.map (Frame.map g)) := by
  induction fs generalizing t with
  | nil => rfl
  | cons f fs ih =>
    obtain ⟨s, c, a, sib⟩ := f
    rw [plug, ih]
    cases s <;> rfl

theorem plug_append (t : RbTree α) (fs gs : List (Frame α)) : plug t (fs ++ gs) = plug (plug t fs) gs := by
  induction fs generalizing t with
  | nil => rfl
  | cons f fs ih => exact ih (f.plug t)

/-- Every entry is at the end of a path. -/
theorem exists_plug {t : RbTree α} {a : α} (h : a ∈ t.toList) :
    ∃ c l r fs, t = plug (node c l a r) fs := by
  induction t with
  | nil => cases h
  | node c l b r ihl ihr =>
    rcases mem_append.mp h with h | h
    · obtain ⟨d, l', r', fs, rfl⟩ := ihl h
      exact ⟨d, l', r', fs ++ [⟨.left, c, b, r⟩], by rw [plug_append]; rfl⟩
    · rcases mem_cons.mp h with rfl | h
      · exact ⟨c, l, r, [], rfl⟩
      · obtain ⟨d, l', r', fs, rfl⟩ := ihr h
        exact ⟨d, l', r', fs ++ [⟨.right, c, b, l⟩], by rw [plug_append]; rfl⟩

/-- A balanced tree with a root of this colour and with `n` black nodes on every path may stand at the
    end of the path. -/
def Fits : List (Frame α) → Color → ℕ → Prop
  | [], c, _ => c = .black
  | f :: fs, c, n =>
    (f.col = .red → c = .black ∧ f.sib.col = .black) ∧ f.sib.Bal n ∧ Fits fs f.col (n + f.col.weight)

theorem bal_frame {f : Frame α} {t : RbTree α} {n : ℕ} :
    (f.plug t).Bal n ↔ (f.col = .red → t.col = .black ∧ f.sib.col = .black) ∧
      ∃ k, n = k + f.col.weight ∧ t.Bal k ∧ f.sib.Bal k := by
  obtain ⟨s, c, a, sib⟩ := f
  cases s with
  | left => rfl
  | right =>
    simp only [Frame.plug, join, Bal]
    rw [and_comm (a := sib.col = .black)]
    exact and_congr_right fun _ => exists_congr fun k => and_congr_right fun _ => and_comm

theorem balanced_plug {fs : List (Frame α)} :
    ∀ {t : RbTree α}, (plug t fs).Balanced ↔ ∃ n, t.Bal n ∧ Fits fs t.col n := by
  induction fs with
  | nil =>
    intro t
    simp only [plug, Balanced, Fits]
    constructor
    · rintro ⟨hc, n, hn⟩
      exact ⟨n, hn, hc⟩
    · rintro ⟨n, hn, hc⟩
      exact ⟨hc, n, hn⟩
  | cons f fs ih =>
    intro t
    rw [plug, ih]
    have hcol : (f.plug t).col = f.col := col_join ..
    simp only [hcol, bal_frame, Fits]
    constructor
    · rintro ⟨n, ⟨hc, k, rfl, ht, hs⟩, hf⟩
      exact ⟨k, ht, hc, hs, hf⟩
    · rintro ⟨k, ht, hc, hs, hf⟩
      exact ⟨_, ⟨hc, k, rfl, ht, hs⟩, hf⟩

/-- Where a red tree may stand, a black one may. -/
theorem Fits.black {fs : List (Frame α)} {c : Color} {n : ℕ} (h : Fits fs c n) : Fits fs .black n := by
  cases fs with
  | nil => rfl
  | cons f fs =>
    obtain ⟨hc, hs, hf⟩ := h
    exact ⟨fun hr => ⟨rfl, (hc hr).2⟩, hs, hf⟩

/-- A red tree does not stand at the top, nor below a red node. -/
theorem Fits.red {fs : List (Frame α)} {n : ℕ} (h : Fits fs .red n) :
    ∃ f gs, fs = f :: gs ∧ f.col = .black ∧ f.sib.Bal n ∧ Fits gs .black (n + 1) := by
  cases fs with
  | nil => cases h
  | cons f fs =>
    obtain ⟨hc, hs, hf⟩ := h
    have hb : f.col = .black := by
      cases hcol : f.col with
      | black => rfl
      | red => exact nomatch (hc hcol).1
    rw [hb] at hf
    exact ⟨f, fs, rfl, hb, hs, hf⟩

end RbTree

end Anoubis.Lib

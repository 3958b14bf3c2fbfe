import Anoubis.Ui.Pgfile

/-! The names in a list of names. -/

namespace Anoubis.Ui

open Option

open Anoubis.Lib List
open Anoubis.Daemon.Sfs (comps comps_append comps_noSlash comps_slash comps_nil)

/-! ### Numbers -/

/-- What `%x` takes: blanks, a sign, and hexadecimal digits, which may start with `0x`. -/
def IsNumber (h : Text) : Prop :=
  ∃ blanks sign digits, h = blanks ++ (sign ++ digits) ∧ (∀ c ∈ blanks, isspace c) ∧
    (sign = [] ∨ sign = ['+'] ∨ sign = ['-']) ∧
    ((digits ≠ [] ∧ ∀ c ∈ digits, isxdigit c) ∨
      ∃ x rest, digits = '0' :: x :: rest ∧ (x = 'x' ∨ x = 'X') ∧ ∀ c ∈ rest, isxdigit c)

/-- A name with a prefix of a playground: `c` is a dot, or `D` for a whiteout. -/
def plgrName (c : Char) (number name : Text) : Text := ".plgr".toList ++ c :: (number ++ '.' :: name)

theorem skipSign_spec (s : Text) : ∃ sign, s = sign ++ skipSign s ∧ (sign = [] ∨ sign = ['+'] ∨ sign = ['-']) := by
  cases s with
  | nil => exact ⟨[], rfl, .inl rfl⟩
  | cons c s =>
    by_cases hc : c = '+' ∨ c = '-'
    · refine ⟨[c], by simp [skipSign, hc], .inr ?_⟩
      simpa using hc
    · exact ⟨[], by simp [skipSign, hc], .inl rfl⟩

variable {s a b t : Text} {c : Char} {fs : Fs} {r i : Inode}

theorem scanDigits_spec {r : Text} (h : scanDigits s = some r) :
    ∃ digits, s = digits ++ r ∧ ((digits ≠ [] ∧ ∀ c ∈ digits, isxdigit c) ∨
      ∃ x rest, digits = '0' :: x :: rest ∧ (x = 'x' ∨ x = 'X') ∧ ∀ c ∈ rest, isxdigit c) := by
  have hdigits (t : Text) : t = t.takeWhile isxdigit ++ t.dropWhile isxdigit ∧ ∀ c ∈ t.takeWhile isxdigit, isxdigit c :=
    ⟨takeWhile_append_dropWhile.symm, fun c hc => mem_takeWhile_imp hc⟩
  cases s with
  | nil => exact absurd h (by simp [scanDigits])
  | cons c t =>
    rw [scanDigits] at h
    by_cases hc : isxdigit c
    · rw [if_pos hc] at h
      have hplain (ht : t.dropWhile isxdigit = r) : ∃ digits, c :: t = digits ++ r ∧
          digits ≠ [] ∧ ∀ c ∈ digits, isxdigit c := by
        refine ⟨c :: t.takeWhile isxdigit, by rw [cons_append, ← ht, ← (hdigits t).1], by simp, ?_⟩
        intro x hx
        rcases mem_cons.mp hx with rfl | hx
        · exact hc
        · exact (hdigits t).2 x hx
      have hr := some.inj h
      by_cases h0 : c = '0'
      · rw [if_pos h0] at hr
        cases t with
        | nil =>
          obtain ⟨digits, hs, hd⟩ := hplain hr
          exact ⟨digits, hs, .inl hd⟩
        | cons x u =>
          by_cases hx : x = 'x' ∨ x = 'X'
          · rw [skipX, if_pos hx] at hr
            refine ⟨'0' :: x :: u.takeWhile isxdigit, ?_, .inr ⟨x, _, rfl, hx, (hdigits u).2⟩⟩
            rw [h0, cons_append, cons_append, ← hr, ← (hdigits u).1]
          · rw [skipX, if_neg hx] at hr
            obtain ⟨digits, hs, hd⟩ := hplain hr
            exact ⟨digits, hs, .inl hd⟩
      · rw [if_neg h0] at hr
        obtain ⟨digits, hs, hd⟩ := hplain hr
        exact ⟨digits, hs, .inl hd⟩
    · rw [if_neg hc] at h
      exact absurd h (by simp)

theorem scanHexChar_spec {rest : Text} (h : scanHexChar s = some (c, rest)) :
    ∃ number, IsNumber number ∧ s = number ++ c :: rest := by
  rw [scanHexChar] at h
  split at h
  · rename_i c' t hd
    obtain ⟨hc, ht⟩ := Prod.mk.inj (some.inj h)
    obtain ⟨digits, hs, hok⟩ := scanDigits_spec hd
    obtain ⟨sign, hsign, hsok⟩ := skipSign_spec (s.dropWhile isspace)
    refine ⟨s.takeWhile isspace ++ (sign ++ digits), ?_, ?_⟩
    · exact ⟨_, sign, digits, rfl, fun c hc => mem_takeWhile_imp hc, hsok, hok⟩
    · rw [append_assoc, append_assoc, ← hc, ← ht, ← hs, ← hsign, takeWhile_append_dropWhile]
  · exact absurd h (by simp)

theorem dropWhile_front {p : Char → Bool} (ha : ∀ c ∈ a, p c) (hb : ∀ c ∈ b.head?, p c = false) :
    (a ++ b).dropWhile p = b := by
  induction a with
  | nil =>
    cases b with
    | nil => rfl
    | cons c b => simp [hb c rfl]
  | cons c a ih =>
    rw [cons_append, dropWhile_cons, if_pos (ha c mem_cons_self)]
    exact ih fun c hc => ha c (mem_cons_of_mem _ hc)

theorem isxdigit_ge (h : isxdigit c) : '0' ≤ c := by
  simp only [isxdigit, Bool.or_eq_true, Bool.and_eq_true, decide_eq_true_eq] at h
  rcases h with (h | h) | h
  · exact h.1
  · exact Char.le_trans (show '0' ≤ 'a' by decide) h.1
  · exact Char.le_trans (show '0' ≤ 'A' by decide) h.1

theorem isxdigit_isspace (h : isxdigit c) : isspace c = false := by
  have hge := isxdigit_ge h
  by_contra hs
  rw [Bool.not_eq_false, isspace, Bool.or_eq_true, Bool.and_eq_true, decide_eq_true_eq, decide_eq_true_eq] at hs
  rcases hs with hs | ⟨-, hs⟩
  · rw [eq_of_beq hs] at hge
    exact absurd hge (by decide)
  · exact absurd (Char.le_trans hge hs) (by decide)

/-- `%x` takes a whole number that stands in front of a dot. -/
theorem scanHexChar_number {number : Text} (h : IsNumber number) (rest : Text) :
    scanHexChar (number ++ '.' :: rest) = some ('.', rest) := by
  obtain ⟨blanks, sign, digits, rfl, hblanks, hsign, hdigits⟩ := h
  -- the digits start with a digit, and the dot ends them
  obtain ⟨c, t, rfl, hc⟩ : ∃ c t, digits = c :: t ∧ isxdigit c := by
    rcases hdigits with ⟨hne, hx⟩ | ⟨x, t, rfl, -, -⟩
    · obtain ⟨c, t, rfl⟩ := exists_cons_of_ne_nil hne
      exact ⟨c, t, rfl, hx c mem_cons_self⟩
    · exact ⟨'0', x :: t, rfl, by decide⟩
  have hend {t : Text} (ht : ∀ c ∈ t, isxdigit c) : (t ++ '.' :: rest).dropWhile isxdigit = '.' :: rest :=
    dropWhile_front ht fun c hc => by rw [← some.inj hc]; decide
  have hscan : scanDigits (c :: t ++ '.' :: rest) = some ('.' :: rest) := by
    rw [cons_append, scanDigits, if_pos hc]
    rcases hdigits with ⟨-, hx⟩ | ⟨x, u, hxu, hx, hu⟩
    · have ht : ∀ c ∈ t, isxdigit c := fun c hc => hx c (mem_cons_of_mem _ hc)
      have hskip : skipX (t ++ '.' :: rest) = t ++ '.' :: rest := by
        cases t with
        | nil => rfl
        | cons y t =>
          have hy : ¬(y = 'x' ∨ y = 'X') := by
            rintro (rfl | rfl)
            · exact absurd (ht _ mem_cons_self) (by decide)
            · exact absurd (ht _ mem_cons_self) (by decide)
          rw [cons_append, skipX, if_neg hy]
      rw [hskip, ite_self, hend ht]
    · obtain ⟨rfl, rfl⟩ := List.cons.inj hxu
      rw [if_pos rfl, cons_append, skipX, if_pos hx, hend hu]
  have hblank : ((blanks ++ (sign ++ c :: t)) ++ '.' :: rest).dropWhile isspace = sign ++ (c :: t ++ '.' :: rest) := by
    rw [append_assoc, append_assoc]
    refine dropWhile_front hblanks fun a ha => ?_
    rcases hsign with rfl | rfl | rfl
    · rw [← some.inj ha]
      exact isxdigit_isspace hc
    · rw [← some.inj ha]
      decide
    · rw [← some.inj ha]
      decide
  have hskip : skipSign (sign ++ (c :: t ++ '.' :: rest)) = c :: t ++ '.' :: rest := by
    rcases hsign with rfl | rfl | rfl
    · have hn : ¬(c = '+' ∨ c = '-') := by
        rintro (rfl | rfl)
        · exact absurd hc (by decide)
        · exact absurd hc (by decide)
      rw [nil_append, cons_append, skipSign, if_neg hn]
    · rfl
    · rfl
  rw [scanHexChar, hblank, hskip, hscan]

theorem scanLiteral_append (lit s : Text) : scanLiteral lit (lit ++ s) = some s := by
  rw [scanLiteral, if_pos (prefix_append lit s), drop_left]

theorem scanLiteral_some {lit r : Text} (h : scanLiteral lit s = some r) : s = lit ++ r := by
  rw [scanLiteral] at h
  by_cases hp : lit <+: s
  · rw [if_pos hp] at h
    obtain ⟨t, rfl⟩ := hp
    rw [drop_left] at h
    rw [some.inj h]
  · rw [if_neg hp] at h
    exact absurd h (by simp)

/-- The names that `pgfile_process` takes for names of a playground. -/
theorem scanName_iff {name : Text} :
    scanName s = some (c, '.', name) ↔ ∃ number, IsNumber number ∧ s = plgrName c number name := by
  constructor
  · intro h
    rw [scanName] at h
    split at h
    · rename_i c' t hlit
      obtain ⟨r, hr, heq⟩ := map_eq_some_iff.mp h
      obtain ⟨rfl, hr'⟩ := Prod.mk.inj heq
      obtain ⟨number, hn, rfl⟩ := scanHexChar_spec (show scanHexChar t = some ('.', name) by rw [hr, ← hr'])
      exact ⟨number, hn, scanLiteral_some hlit⟩
    · exact absurd h (by simp)
  · rintro ⟨number, hn, rfl⟩
    rw [scanName, plgrName, scanLiteral_append]
    simp only [scanHexChar_number hn, map_some]

/-! ### Paths -/

/-- What `splitLast` finds in a path that does not start with a slash. -/
structure Split (p front last slashes : Text) : Prop where
  path : p = front ++ (last ++ slashes)
  last_ne : last ≠ []
  last_noSlash : '/' ∉ last
  slashes : ∀ c ∈ slashes, c = '/'
  front : front = [] ∨ ∃ g, g ≠ [] ∧ front = g ++ ['/']

theorem splitLast_spec {p : Text} (hp : p.head? ≠ some '/') (hne : p ≠ []) :
    Split p (splitLast p).1 (splitLast p).2.1 (splitLast p).2.2 := by
  have hr : p.rdropWhile (· = '/') ≠ [] := by
    obtain ⟨c, t, rfl⟩ := exists_cons_of_ne_nil hne
    intro hnil
    have := rdropWhile_eq_nil_iff.mp hnil c mem_cons_self
    exact hp (by simpa using this)
  have hpath : p = (splitLast p).1 ++ ((splitLast p).2.1 ++ (splitLast p).2.2) := by
    rw [← append_assoc]
    simp only [splitLast, rdropWhile_append_rtakeWhile]
  refine ⟨hpath, fun h => ?_, fun h => ?_, fun c hc => by simpa using mem_rtakeWhile_imp hc, ?_⟩
  · have hlast := rtakeWhile_eq_nil_iff.mp h hr
    have hnot := rdropWhile_last_not _ p hr
    simp only [decide_eq_true_eq, not_not] at hlast hnot
    exact hnot hlast
  · simpa using mem_rtakeWhile_imp h
  · by_cases hf : (splitLast p).1 = []
    · exact .inl hf
    · have hnot := rdropWhile_last_not _ _ hf
      simp only [decide_eq_true_eq, not_not] at hnot
      have hfront := (dropLast_append_getLast hf).symm
      refine .inr ⟨(splitLast p).1.dropLast, fun hg => hp ?_, hnot ▸ hfront⟩
      rw [hg, nil_append] at hfront
      rw [hpath, hfront]
      exact congrArg some hnot

theorem head_skipSlashes (name : Text) : (skipSlashes name).head? ≠ some '/' := by
  intro h
  have := head?_dropWhile_not (fun c => decide (c = '/')) name
  rw [show name.dropWhile (fun c => decide (c = '/')) = skipSlashes name from rfl, h] at this
  exact absurd this (by simp)

theorem comps_slashes (h : ∀ c ∈ t, c = '/') : comps t = [] := by
  induction t with
  | nil => rfl
  | cons c t ih =>
    rw [h c mem_cons_self, comps_slash]
    exact ih fun c hc => h c (mem_cons_of_mem _ hc)

variable {p front last slashes : Text}

/-- The last component stands in the directory in front of it. -/
theorem Split.comps (h : Split p front last slashes) : comps p = comps front ++ [last] := by
  have hlast : Anoubis.Daemon.Sfs.comps (last ++ slashes) = [last] := by
    cases hs : slashes with
    | nil => rw [append_nil, comps_noSlash h.last_noSlash h.last_ne]
    | cons c t =>
      have ht : ∀ x ∈ t, x = '/' := fun x hx => h.slashes x (by rw [hs]; exact mem_cons_of_mem _ hx)
      rw [h.slashes c (by rw [hs]; exact mem_cons_self), comps_append, comps_slashes ht,
        comps_noSlash h.last_noSlash h.last_ne, append_nil]
  rw [h.path]
  rcases h.front with hf | ⟨g, -, hf⟩
  · rw [hf, nil_append, hlast]
    rfl
  · rw [hf, append_assoc, singleton_append, comps_append, comps_append, hlast, comps_nil, append_nil]

theorem Fs.walk_pathComps (h : fs.walk r (Fs.pathComps p) = some i) : fs.walk r (comps p) = some i := by
  rw [Fs.pathComps] at h
  by_cases hs : p.getLast? = some '/'
  · rw [if_pos hs, Fs.walk_append] at h
    obtain ⟨x, hx, hw⟩ := h
    obtain ⟨-, -, y, hy, hw⟩ := Fs.walk_cons.mp hw
    rw [Fs.step, if_pos rfl] at hy
    rw [hx, some.inj hy]
    exact hw
  · rwa [if_neg hs] at h

/-- A file is found in the directory in front of its name. -/
theorem Split.fstatat (hsplit : Split p front last slashes) (h : fs.fstatat r p = some i) :
    ∃ d, fs.walk r (Daemon.Sfs.comps front) = some d ∧ (fs.mode d).isDir ∧ (fs.mode d).search ∧
      fs.step d last = some i := by
  rw [Fs.fstatat] at h
  by_cases hp : p = []
  · rw [if_pos hp] at h
    exact absurd h (by simp)
  rw [if_neg hp] at h
  have h := Fs.walk_pathComps h
  rw [hsplit.comps, Fs.walk_append] at h
  obtain ⟨d, hd, hw⟩ := h
  obtain ⟨hdir, hs, x, hx, hw⟩ := Fs.walk_cons.mp hw
  exact ⟨d, hd, hdir, hs, hx.trans hw⟩

/-- The directory that is opened is the one the file was found in. -/
theorem Split.openDir {d : Inode} (hsplit : Split p front last slashes)
    (hd : fs.walk r (Daemon.Sfs.comps front) = some d) : (∀ d', fs.openDir r front = some d' → d' = d) ∧
      ((fs.mode d).isDir → (fs.mode d).search → (fs.mode d).read → fs.openDir r front = some d) := by
  rcases hsplit.front with rfl | ⟨g, hg, rfl⟩
  · have hr : r = d := some.inj hd
    rw [Fs.openDir, if_pos rfl, hr]
    exact ⟨fun d' h => (some.inj h).symm, fun _ _ _ => rfl⟩
  · have hopen : fs.openDir r (g ++ ['/']) = fs.openat r g := by
      rw [Fs.openDir, if_neg (by simp), dropLast_concat]
    have hd : fs.walk r (Daemon.Sfs.comps g) = some d := by
      rwa [comps_append, comps_nil, append_nil] at hd
    rw [hopen, Fs.openat, Fs.fstatat, if_neg hg]
    refine ⟨fun d' h => ?_, fun hdir hs hread => ?_⟩
    · obtain ⟨h, -⟩ := filter_eq_some_iff.mp h
      exact some.inj ((Fs.walk_pathComps h).symm.trans hd)
    · have hw : fs.walk r (Fs.pathComps g) = some d := by
        rw [Fs.pathComps]
        by_cases hslash : g.getLast? = some '/'
        · rw [if_pos hslash]
          have hdot : fs.walk d [dot] = some d := Fs.walk_cons.mpr ⟨hdir, hs, d, if_pos rfl, rfl⟩
          exact (Fs.walk_append _ _).mpr ⟨d, hd, hdot⟩
        · rwa [if_neg hslash]
      exact filter_eq_some_iff.mpr ⟨hw, by simp [hdir, hread]⟩

/-- A whiteout is one by its last component. -/
theorem Split.whiteout (hsplit : Split p (splitLast p).1 (splitLast p).2.1 (splitLast p).2.2) {q : Text}
    (h : whiteoutToFile p = some q) :
    ∃ number name, IsNumber number ∧ (splitLast p).2.1 = plgrName 'D' number name := by
  rw [whiteoutToFile] at h
  dsimp only at h
  rw [if_neg hsplit.last_ne] at h
  split at h
  · rename_i ch rest hscan
    by_cases hc : ch = '.'
    · obtain ⟨t, hlit, hhex⟩ := bind_eq_some_iff.mp hscan
      obtain ⟨number, hn, ht⟩ := scanHexChar_spec hhex
      have heq : (splitLast p).2.1 ++ (splitLast p).2.2 = (".plgrD".toList ++ number) ++ '.' :: rest := by
        rw [scanLiteral_some hlit, ht, hc, append_assoc]
      -- the slashes are behind the dot
      rcases append_eq_append_iff.mp heq with ⟨u, -, hu⟩ | ⟨u, hl, hu⟩
      · have hdot := hsplit.slashes '.' (by rw [hu]; simp)
        exact absurd hdot (by decide)
      · cases u with
        | nil =>
          have hdot := hsplit.slashes '.' (by rw [← nil_append (splitLast p).2.2, ← hu]; simp)
          exact absurd hdot (by decide)
        | cons a u =>
          obtain ⟨rfl, -⟩ := List.cons.inj hu
          exact ⟨number, u, hn, by rw [hl, append_assoc]; rfl⟩
    · rw [if_neg hc] at h
      exact absurd h (by simp)
  · exact absurd h (by simp)

/-! ### The list -/

theorem prefixLen_pos {len : ℕ} (h : prefixLen s = some len) : 0 < len := by
  rw [prefixLen] at h
  by_cases hp : ".plgr.".toList <+: s
  · rw [if_pos hp] at h
    dsimp only at h
    split at h
    · split at h
      · rw [← some.inj h]
        omega
      · exact absurd h (by simp)
    · exact absurd h (by simp)
  · rw [if_neg hp] at h
    exact absurd h (by simp)

theorem length_findFirst {prev : Char} (h : findFirstPlgrPrefix prev s = some (a, b)) :
    a.length + b.length < s.length := by
  induction s generalizing prev a b with
  | nil => exact absurd h (by simp [findFirstPlgrPrefix])
  | cons c s ih =>
    have hnext (hn : (findFirstPlgrPrefix c s).map (fun r => (c :: r.1, r.2)) = some (a, b)) :
        a.length + b.length < (c :: s).length := by
      obtain ⟨r, hr, heq⟩ := map_eq_some_iff.mp hn
      cases heq
      have := ih (show findFirstPlgrPrefix c s = some (r.1, r.2) from hr)
      simp only [length_cons]
      omega
    rw [findFirstPlgrPrefix] at h
    split at h
    · exact hnext h
    · rename_i len hlen
      have hpos : 0 < len := by
        by_cases hprev : prev = '/'
        · rw [if_pos hprev] at hlen
          exact prefixLen_pos hlen
        · rw [if_neg hprev] at hlen
          exact absurd hlen (by simp)
      split at h
      · exact absurd h (by simp)
      · rename_i x rest hdrop
        by_cases hx : x = '/'
        · rw [if_pos hx] at h
          exact hnext h
        · rw [if_neg hx] at h
          cases h
          have hl := congrArg List.length hdrop
          rw [length_drop] at hl
          simp only [length_cons, length_nil] at hl ⊢
          omega

/-- Every variant is shorter than the name before it, so all of them are found. -/
theorem variants_fuel {n : ℕ} {str : Text} (h : str.length ≤ n) : variants n str = variants str.length str := by
  induction hl : str.length using Nat.strongRecOn generalizing n str with
  | ind m ih =>
    cases n with
    | zero => rw [show m = 0 by omega]
    | succ n =>
      cases m with
      | zero =>
        rw [length_eq_zero_iff.mp hl]
        rfl
      | succ m =>
        rw [variants, variants]
        split
        · rfl
        · rename_i front rest hfind
          have hlt := length_findFirst hfind
          have hlen : (front ++ rest).length < m + 1 := by rw [length_append]; omega
          have hfuel (k : ℕ) (hk : (front ++ rest).length ≤ k) :=
            ih (front ++ rest).length hlen hk rfl
          by_cases hs : '/' ∈ rest
          · rw [if_pos hs, if_pos hs, hfuel n (by omega), hfuel m (by omega)]
          · rw [if_neg hs, if_neg hs]

theorem char_ext {a b : Char} (h : a.toNat = b.toNat) : a = b := Char.toNat_inj.mp h

theorem strcmpLe_total (s t : Text) : strcmpLe s t ∨ strcmpLe t s := by
  induction s generalizing t with
  | nil => exact .inl rfl
  | cons a s ih =>
    cases t with
    | nil => exact .inr rfl
    | cons b t =>
      simp only [strcmpLe, Bool.or_eq_true, Bool.and_eq_true, decide_eq_true_eq, beq_iff_eq]
      rcases lt_trichotomy a.toNat b.toNat with h | h | h
      · exact .inl (.inl h)
      · rcases ih t with hs | hs
        · exact .inl (.inr ⟨char_ext h, hs⟩)
        · exact .inr (.inr ⟨char_ext h.symm, hs⟩)
      · exact .inr (.inl h)

theorem strcmpLe_trans {u : Text} (h : strcmpLe s t) (h' : strcmpLe t u) : strcmpLe s u := by
  induction s generalizing t u with
  | nil => rfl
  | cons a s ih =>
    cases t with
    | nil => exact absurd h (by simp [strcmpLe])
    | cons b t =>
      cases u with
      | nil => exact absurd h' (by simp [strcmpLe])
      | cons c u =>
        simp only [strcmpLe, Bool.or_eq_true, Bool.and_eq_true, decide_eq_true_eq, beq_iff_eq] at h h' ⊢
        rcases h with h | ⟨rfl, h⟩ <;> rcases h' with h' | ⟨rfl, h'⟩
        · exact .inl (by omega)
        · exact .inl h
        · exact .inl h'
        · exact .inr ⟨rfl, ih h h'⟩

theorem strcmpLe_antisymm (h : strcmpLe s t) (h' : strcmpLe t s) : s = t := by
  induction s generalizing t with
  | nil =>
    cases t with
    | nil => rfl
    | cons b t => exact absurd h' (by simp [strcmpLe])
  | cons a s ih =>
    cases t with
    | nil => exact absurd h (by simp [strcmpLe])
    | cons b t =>
      simp only [strcmpLe, Bool.or_eq_true, Bool.and_eq_true, decide_eq_true_eq, beq_iff_eq] at h h'
      rcases h with h | ⟨rfl, h⟩ <;> rcases h' with h' | ⟨hb, h'⟩
      · omega
      · rw [hb] at h
        omega
      · omega
      · rw [ih h h']

/-- A sorted list is free of duplicates if neighbours differ. -/
theorem nodup_of_chain {l : List Text} (hs : l.Pairwise fun s t => strcmpLe s t) (hc : l.IsChain (· ≠ ·)) :
    l.Nodup := by
  induction l with
  | nil => exact nodup_nil
  | cons a l ih =>
    obtain ⟨ha, hs⟩ := pairwise_cons.mp hs
    refine nodup_cons.mpr ⟨fun hmem => ?_, ih hs hc.tail⟩
    cases l with
    | nil => exact absurd hmem (by simp)
    | cons b l =>
      have hab : a ≠ b := hc.rel
      rcases mem_cons.mp hmem with hmem | hmem
      · exact hab hmem
      · exact hab (strcmpLe_antisymm (ha b mem_cons_self) ((pairwise_cons.mp hs).1 a hmem))

/-- No name stands in the list twice. -/
theorem nodup_normalizeFileList (names : List Text) : (normalizeFileList names).Nodup := by
  have htotal : Std.Total fun s t : Text => (strcmpLe s t : Prop) := ⟨strcmpLe_total⟩
  have htrans : IsTrans Text fun s t => strcmpLe s t := ⟨fun _ _ _ => strcmpLe_trans⟩
  rw [normalizeFileList]
  exact nodup_of_chain ((pairwise_insertionSort _ _).sublist (destutter_sublist _ _)) (isChain_destutter _ _)

end Anoubis.Ui

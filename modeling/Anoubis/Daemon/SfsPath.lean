import Anoubis.Apn.Path
import Anoubis.Apn.Print
import Mathlib.Data.List.Infix

/-! File names in the tree of checksums (`sfs.c`).

    Each file of the system has a directory in the tree. Stars in its path are doubled, and one more star
    in front of the last component keeps it apart from the directories on the way. The checksums are stored
    in files of this directory, one for each user and one for each key:

        /usr/bin/a*b   ->   ROOT/usr/bin/ *a**b/1000   and   ROOT/usr/bin/ *a**b/k0123abcd -/

namespace Anoubis.Daemon.Sfs

open List

open Anoubis.Apn (joinSlash GoodComp Canonical render exists_joinSlash joinSlash_append showNat showInt toInt32)

/-! ### Paths -/

/-- Every star twice. -/
def doubleStars (path : Text) : Text := path.flatMap fun c => if c = '*' then ['*', '*'] else [c]

/-- `while (k > 0) { if (newpath[k] == '/') break; k--; }` -/
def lastSlash (s : Text) : ℕ → ℕ
  | 0 => 0
  | k + 1 => if s[k + 1]? = some '/' then k + 1 else lastSlash s k

/-- `insert_escape_seq`. -/
def insertEscapeSeq (path : Text) (dir : Bool) : Text :=
  let newpath := doubleStars path
  if dir then newpath
  else
    let k := lastSlash newpath newpath.length + 1
    newpath.take k ++ '*' :: newpath.drop k

/-- The loop of `remove_escape_seq`. A single star leaves a byte of the new string as malloc had it. -/
def unescape (junk : Char) : Text → Text
  | [] => []
  | '*' :: '*' :: s => '*' :: unescape junk s
  | '*' :: s => junk :: unescape junk s
  | c :: s => c :: unescape junk s

/-- `remove_escape_seq`: a slash at the end marks a directory. -/
def removeEscapeSeq (junk : Char) (name : Text) : Text :=
  if name.count '*' % 2 = 1 then unescape junk name.tail else unescape junk name ++ ['/']

def einval : ℤ := -22

/-- `__convert_user_path`, for the root of the tree that the process sees. -/
def convertUserPath (root path : Text) (isDir : Bool) : Except ℤ Text :=
  let i := path.length - 1
  if path.head? ≠ some '/' then .error einval
  else if "/../".toList <:+: path then .error einval
  else if "/./".toList <:+: path then .error einval
  else if "//".toList <:+: path then .error einval
  else if path[1]? = some '.' ∧ (path[2]? = none ∨ (path[2]? = some '.' ∧ path[3]? = none)) then .error einval
  else if path[i]? = some '.' ∧
      (path[i - 1]? = some '/' ∨ (path[i - 1]? = some '.' ∧ path[i - 2]? = some '/')) then .error einval
  else if path[i]? = some '/' ∧ (isDir = false ∨ i ≠ 0) then .error einval
  else .ok (root ++ insertEscapeSeq path isDir)

/-! ### Files -/

/-- The uid of a user, which `%d` prints as an int. -/
def uidName (uid : UInt32) : Text := showInt (toInt32 uid.toNat)

/-- A hexadecimal digit. -/
def hexDigit (n : ℕ) : Char := "0123456789abcdef".toList.getD n '0'

/-- `abuf_convert_tohexstr`. -/
def hexString (key : List UInt8) : Text := key.flatMap fun b => [hexDigit (b.toNat / 16), hexDigit (b.toNat % 16)]

/-- The name of the file of a key. -/
def keyName (key : List UInt8) : Text := 'k' :: hexString key

/-- A file in the directory `dir`. -/
def fileIn (dir name : Text) : Text := dir ++ '/' :: name

/-! ### Components -/

variable {cs ds : List Text} {path root d : Text}

@[simp] theorem doubleStars_nil : doubleStars [] = [] := rfl

@[simp] theorem doubleStars_cons (c : Char) (s : Text) :
    doubleStars (c :: s) = (if c = '*' then ['*', '*'] else [c]) ++ doubleStars s := rfl

@[simp] theorem doubleStars_append (s t : Text) : doubleStars (s ++ t) = doubleStars s ++ doubleStars t :=
  flatMap_append

theorem mem_doubleStars {s : Text} {c : Char} : c ∈ doubleStars s ↔ c ∈ s := by
  induction s with
  | nil => exact .rfl
  | cons a s ih =>
    rw [doubleStars_cons, mem_append, ih, mem_cons]
    refine or_congr_left ?_
    split
    · subst a
      simp
    · simp

theorem doubleStars_joinSlash (cs : List Text) : doubleStars (joinSlash cs) = joinSlash (cs.map doubleStars) := by
  induction cs with
  | nil => rfl
  | cons c cs ih => simp [ih]

theorem doubleStars_injective : Function.Injective doubleStars := by
  intro s
  induction s with
  | nil =>
    intro t h
    cases t with
    | nil => rfl
    | cons b t =>
      rw [doubleStars_cons] at h
      split at h <;> simp at h
  | cons a s ih =>
    intro t h
    cases t with
    | nil =>
      rw [doubleStars_cons] at h
      split at h <;> simp at h
    | cons b t =>
      rw [doubleStars_cons, doubleStars_cons] at h
      split at h <;> split at h
      · rename_i ha hb
        rw [ha, hb, ih (by simpa using h)]
      · rename_i ha hb
        simp only [cons_append, nil_append, List.cons.injEq] at h
        exact absurd h.1.symm hb
      · rename_i ha hb
        simp only [cons_append, nil_append, List.cons.injEq] at h
        exact absurd h.1 ha
      · simp only [cons_append, nil_append, List.cons.injEq] at h
        rw [h.1, ih h.2]

theorem count_doubleStars (s : Text) : (doubleStars s).count '*' = 2 * s.count '*' := by
  induction s with
  | nil => rfl
  | cons a s ih =>
    rw [doubleStars_cons, count_append, ih, count_cons]
    by_cases ha : a = '*'
    · subst ha
      simp only [if_true, count_cons, count_nil, beq_self_eq_true]
      omega
    · rw [if_neg ha, count_eq_zero.mpr (by simpa using Ne.symm ha), if_neg (by simpa using ha)]
      omega

/-- The name of a file has an odd number of stars, that of a directory an even one. -/
theorem doubleStars_ne_leaf (c c' : Text) : doubleStars c ≠ '*' :: doubleStars c' := by
  intro h
  have hcount := congrArg (List.count '*') h
  rw [count_doubleStars, count_cons_self, count_doubleStars] at hcount
  omega

/-- Components without slashes can be read back. -/
theorem joinSlash_injective (hcs : ∀ c ∈ cs, '/' ∉ c) (hds : ∀ c ∈ ds, '/' ∉ c) (h : joinSlash cs = joinSlash ds) :
    cs = ds := by
  induction cs generalizing ds with
  | nil =>
    cases ds with
    | nil => rfl
    | cons d ds => simp at h
  | cons c cs ih =>
    cases ds with
    | nil => simp at h
    | cons d ds =>
      simp only [Apn.joinSlash_cons, List.cons.injEq, true_and] at h
      have hread : ∀ (c : Text) (cs : List Text), '/' ∉ c → (c ++ joinSlash cs).takeWhile (· ≠ '/') = c := by
        intro c cs hc
        have hall : ∀ a ∈ c, decide (a ≠ '/') = true := by
          intro a ha
          refine decide_eq_true ?_
          rintro rfl
          exact hc ha
        rw [takeWhile_append_of_pos hall]
        cases cs <;> simp
      have hc := hread c cs (hcs c mem_cons_self)
      have hd := hread d ds (hds d mem_cons_self)
      rw [h, hd] at hc
      subst hc
      rw [ih (fun c hc => hcs c (mem_cons_of_mem _ hc)) (fun c hc => hds c (mem_cons_of_mem _ hc))
        (append_cancel_left h)]

/-- The directory of a file, by the components of its path. -/
def leafDir (cs : List Text) : List Text :=
  cs.dropLast.map doubleStars ++ [('*' :: doubleStars (cs.getLastD []))]

theorem lastSlash_append (a c : Text) (hc : '/' ∉ c) {k : ℕ} (hk : k ≤ (a ++ '/' :: c).length)
    (hle : a.length ≤ k) : lastSlash (a ++ '/' :: c) k = a.length := by
  induction k with
  | zero =>
    rw [lastSlash]
    omega
  | succ k ih =>
    rw [lastSlash]
    by_cases heq : a.length = k + 1
    · have hslash : (a ++ '/' :: c)[k + 1]? = some '/' := by
        rw [← heq, getElem?_append_right le_rfl, Nat.sub_self]
        rfl
      rw [if_pos hslash, heq]
    · have hno : (a ++ '/' :: c)[k + 1]? ≠ some '/' := by
        rw [getElem?_append_right (by omega), show k + 1 - a.length = (k - a.length) + 1 by omega,
          getElem?_cons_succ]
        exact fun h => hc (mem_of_getElem? h)
      rw [if_neg hno]
      exact ih (by omega) (by omega)

/-- What the escaping makes of the components of a path. -/
theorem insertEscapeSeq_dir (cs : List Text) : insertEscapeSeq (joinSlash cs) true = joinSlash (cs.map doubleStars) := by
  rw [insertEscapeSeq, doubleStars_joinSlash]
  rfl

theorem insertEscapeSeq_file (hcs : ∀ c ∈ cs, '/' ∉ c) (hne : cs ≠ []) :
    insertEscapeSeq (joinSlash cs) false = joinSlash (leafDir cs) := by
  rcases eq_nil_or_concat cs with rfl | ⟨pre, c, rfl⟩
  · exact absurd rfl hne
  · rw [concat_eq_append] at hcs ⊢
    have hc : '/' ∉ doubleStars c := fun h => hcs c (by simp) (mem_doubleStars.mp h)
    have hsplit : doubleStars (joinSlash (pre ++ [c])) = joinSlash (pre.map doubleStars) ++ '/' :: doubleStars c := by
      rw [doubleStars_joinSlash]
      simp
    have hleaf : leafDir (pre ++ [c]) = pre.map doubleStars ++ [('*' :: doubleStars c)] := by
      simp [leafDir]
    rw [insertEscapeSeq, hsplit, hleaf]
    simp only [Bool.false_eq_true, if_false]
    rw [lastSlash_append _ _ hc le_rfl (by simp)]
    simp [take_append, drop_append, take_of_length_le, drop_of_length_le]

/-! ### Accepted paths -/

theorem getElem?_tail (a t : Text) (k : ℕ) : (a ++ t)[a.length + k]? = t[k]? := by
  rw [getElem?_append_right (Nat.le_add_right _ _), Nat.add_sub_cancel_left]

/-- The checks refuse every component that leads elsewhere. -/
theorem goodComp_of_checks {isDir : Bool} (hcs : ∀ c ∈ cs, '/' ∉ c)
    (hdotdot : ¬ "/../".toList <:+: joinSlash cs) (hdot : ¬ "/./".toList <:+: joinSlash cs)
    (hempty : ¬ "//".toList <:+: joinSlash cs) (hlast : ¬ ((joinSlash cs)[(joinSlash cs).length - 1]? = some '.' ∧
      ((joinSlash cs)[(joinSlash cs).length - 1 - 1]? = some '/' ∨
        ((joinSlash cs)[(joinSlash cs).length - 1 - 1]? = some '.' ∧
          (joinSlash cs)[(joinSlash cs).length - 1 - 2]? = some '/'))))
    (hslash : ¬ ((joinSlash cs)[(joinSlash cs).length - 1]? = some '/' ∧
      (isDir = false ∨ (joinSlash cs).length - 1 ≠ 0))) : cs = [[]] ∧ isDir = true ∨ ∀ c ∈ cs, GoodComp c := by
  by_cases hall : ∀ c ∈ cs, GoodComp c
  · exact .inr hall
  left
  obtain ⟨c, hc, hbad⟩ : ∃ c ∈ cs, ¬ GoodComp c := by simpa using hall
  obtain ⟨xs, ys, rfl⟩ := append_of_mem hc
  have hno := hcs c hc
  have hjoin : joinSlash (xs ++ c :: ys) = joinSlash xs ++ ('/' :: c ++ joinSlash ys) := by simp
  rw [hjoin] at hdotdot hdot hempty hlast hslash
  have hcases : c = [] ∨ c = ['.'] ∨ c = ['.', '.'] := by
    by_contra hgood
    push Not at hgood
    exact hbad ⟨hgood.1, hno, hgood.2.1, hgood.2.2⟩
  cases ys with
  | cons y ys =>
    have hinfix : ('/' :: c ++ ['/']) <:+: joinSlash xs ++ ('/' :: c ++ joinSlash (y :: ys)) :=
      ⟨joinSlash xs, y ++ joinSlash ys, by simp⟩
    rcases hcases with rfl | rfl | rfl
    · exact absurd hinfix hempty
    · exact absurd hinfix hdot
    · exact absurd hinfix hdotdot
  | nil =>
    rw [Apn.joinSlash_nil, append_nil] at hlast hslash
    have hget := getElem?_tail (joinSlash xs) ('/' :: c)
    rcases hcases with rfl | rfl | rfl
    · have hlen : (joinSlash xs ++ ['/']).length - 1 = (joinSlash xs).length := by simp
      rw [hlen] at hslash
      have hfin : (joinSlash xs ++ ['/'])[(joinSlash xs).length]? = some '/' := hget 0
      rw [hfin] at hslash
      have hdir : isDir = true ∧ (joinSlash xs).length = 0 := by simpa using hslash
      have hxs : xs = [] := by
        cases xs with
        | nil => rfl
        | cons x xs => simp at hdir
      exact ⟨by rw [hxs]; rfl, hdir.1⟩
    · have hlen : (joinSlash xs ++ ['/', '.']).length - 1 = (joinSlash xs).length + 1 := by simp
      rw [hlen] at hlast
      exact absurd ⟨hget 1, .inl (hget 0)⟩ hlast
    · have hlen : (joinSlash xs ++ ['/', '.', '.']).length - 1 = (joinSlash xs).length + 2 := by simp
      rw [hlen] at hlast
      exact absurd ⟨hget 2, .inr ⟨hget 1, hget 0⟩⟩ hlast

/-- An accepted path is the root, or a list of proper components. -/
theorem components_of_ok {isDir : Bool} (h : convertUserPath root path isDir = .ok d) :
    ∃ cs, cs ≠ [] ∧ path = joinSlash cs ∧ (∀ c ∈ cs, '/' ∉ c) ∧
      (cs = [[]] ∧ isDir = true ∨ ∀ c ∈ cs, GoodComp c) ∧ d = root ++ insertEscapeSeq path isDir := by
  simp only [convertUserPath] at h
  split at h
  · cases h
  rename_i hhead
  obtain ⟨c, cs, rfl, hc, hcs⟩ := exists_joinSlash path
  have hc0 : c = [] := by
    cases c with
    | nil => rfl
    | cons a c =>
      simp only [cons_append, head?_cons, Option.some.injEq, ne_eq, not_not] at hhead
      subst hhead
      simp at hc
  subst hc0
  rw [nil_append] at *
  have hne : cs ≠ [] := by
    rintro rfl
    simp at hhead
  split at h
  · cases h
  split at h
  · cases h
  split at h
  · cases h
  split at h
  · cases h
  split at h
  · cases h
  split at h
  · cases h
  rename_i hdotdot hdot hempty _ hlast hslash
  exact ⟨cs, hne, rfl, hcs, goodComp_of_checks hcs hdotdot hdot hempty hlast hslash, (Except.ok.inj h).symm⟩

/-- The directory of a file in the tree. -/
theorem convertUserPath_file (h : convertUserPath root path false = .ok d) :
    ∃ cs, cs ≠ [] ∧ (∀ c ∈ cs, GoodComp c) ∧ path = joinSlash cs ∧ d = root ++ joinSlash (leafDir cs) := by
  obtain ⟨cs, hne, rfl, hcs, hgood, rfl⟩ := components_of_ok h
  exact ⟨cs, hne, hgood.resolve_left (fun h => by cases h.2), rfl, by rw [insertEscapeSeq_file hcs hne]⟩

/-- The directory of a directory in the tree. -/
theorem convertUserPath_dir (h : convertUserPath root path true = .ok d) :
    ∃ cs, (∀ c ∈ cs, GoodComp c) ∧ path = render cs ∧ d = root ++ render (cs.map doubleStars) := by
  obtain ⟨cs, hne, rfl, hcs, hgood, rfl⟩ := components_of_ok h
  rw [insertEscapeSeq_dir]
  rcases hgood with ⟨rfl, -⟩ | hgood
  · exact ⟨[], by simp, rfl, rfl⟩
  · refine ⟨cs, hgood, (if_neg hne).symm, ?_⟩
    rw [render, if_neg (by simpa using hne)]

theorem leafDir_noSlash (hcs : ∀ c ∈ cs, GoodComp c) (hne : cs ≠ []) : ∀ c ∈ leafDir cs, '/' ∉ c := by
  rcases eq_nil_or_concat cs with rfl | ⟨pre, c, rfl⟩
  · exact absurd rfl hne
  · intro a ha
    have hmem : ∀ b ∈ pre ++ [c], '/' ∉ doubleStars b := fun b hb h => by
      rw [concat_eq_append] at hcs
      exact (hcs b hb).2.1 (mem_doubleStars.mp h)
    simp only [concat_eq_append, leafDir, dropLast_concat, getLastD_concat, mem_append,
      mem_map, mem_singleton] at ha
    rcases ha with ⟨b, hb, rfl⟩ | rfl
    · exact hmem b (mem_append_left _ hb)
    · have := hmem c (by simp)
      simpa using this

theorem leafDir_injective (hcs : cs ≠ []) (hds : ds ≠ []) (h : leafDir cs = leafDir ds) : cs = ds := by
  rcases eq_nil_or_concat cs with rfl | ⟨pre, c, rfl⟩
  · exact absurd rfl hcs
  rcases eq_nil_or_concat ds with rfl | ⟨pre', c', rfl⟩
  · exact absurd rfl hds
  simp only [concat_eq_append, leafDir, dropLast_concat, getLastD_concat] at h ⊢
  obtain ⟨hpre, hc⟩ := append_inj' h rfl
  rw [map_injective_iff.mpr doubleStars_injective hpre]
  simp only [List.cons.injEq, true_and, and_true] at hc
  rw [doubleStars_injective hc]

/-! ### File names -/

theorem showNat_injective : Function.Injective showNat := by
  intro n n' h
  have hn := Nat.ofDigitChars_ten_toDigits (n := n)
  have hn' := Nat.ofDigitChars_ten_toDigits (n := n')
  unfold showNat at h
  rw [h, hn'] at hn
  exact hn.symm

theorem isDigit_of_mem_showNat {n : ℕ} {c : Char} (h : c ∈ showNat n) : c.isDigit = true :=
  Nat.isDigit_of_mem_toDigits (by decide) (by decide) h

theorem showInt_injective : Function.Injective showInt := by
  have hminus : ∀ (n : ℕ) (t : Text), showNat n ≠ '-' :: t := by
    intro n t h
    have := isDigit_of_mem_showNat (n := n) (c := '-') (by rw [h]; exact mem_cons_self)
    exact absurd this (by decide)
  intro z z' h
  rw [showInt, showInt] at h
  split at h <;> split at h
  · have := showNat_injective (List.cons.inj h).2
    omega
  · exact absurd h.symm (hminus _ _)
  · exact absurd h (hminus _ _)
  · have := showNat_injective h
    omega

theorem uidName_injective : Function.Injective uidName := by
  intro u v h
  have hint := showInt_injective h
  have hu := u.toNat_lt
  have hv := v.toNat_lt
  refine UInt32.toNat_inj.mp ?_
  unfold toInt32 at hint
  split at hint <;> split at hint <;> omega

/-- The characters of a number. -/
theorem mem_uidName {u : UInt32} {c : Char} (h : c ∈ uidName u) : c = '-' ∨ c.isDigit = true := by
  rw [uidName, showInt] at h
  split at h
  · rcases mem_cons.mp h with rfl | h
    · exact .inl rfl
    · exact .inr (isDigit_of_mem_showNat h)
  · exact .inr (isDigit_of_mem_showNat h)

theorem hexDigit_injective : ∀ n < 16, ∀ n' < 16, hexDigit n = hexDigit n' → n = n' := by decide

theorem hexDigit_ne_slash : ∀ n < 16, hexDigit n ≠ '/' := by decide

@[simp] theorem hexString_nil : hexString [] = [] := rfl

theorem hexString_cons (b : UInt8) (key : List UInt8) :
    hexString (b :: key) = hexDigit (b.toNat / 16) :: hexDigit (b.toNat % 16) :: hexString key := rfl

theorem hexString_injective : Function.Injective hexString := by
  intro k
  induction k with
  | nil =>
    intro k' h
    cases k' with
    | nil => rfl
    | cons b k' => simp [hexString_cons] at h
  | cons a k ih =>
    intro k' h
    cases k' with
    | nil => simp [hexString_cons] at h
    | cons b k' =>
      rw [hexString_cons, hexString_cons] at h
      obtain ⟨hhi, hrest⟩ := List.cons.inj h
      obtain ⟨hlo, hrest⟩ := List.cons.inj hrest
      have ha := a.toNat_lt
      have hb := b.toNat_lt
      have hhi' := hexDigit_injective _ (by omega) _ (by omega) hhi
      have hlo' := hexDigit_injective _ (by omega) _ (by omega) hlo
      rw [ih hrest, UInt8.toNat_inj.mp (show a.toNat = b.toNat by omega)]

theorem hexString_noSlash (key : List UInt8) : '/' ∉ hexString key := by
  induction key with
  | nil => simp
  | cons b key ih =>
    have hb := b.toNat_lt
    have hhi := hexDigit_ne_slash (b.toNat / 16) (by omega)
    have hlo := hexDigit_ne_slash (b.toNat % 16) (by omega)
    simp [hexString_cons, hhi.symm, hlo.symm, ih]

/-- Whose checksum a file holds. -/
inductive Owner where
  | uid (uid : UInt32)
  | key (keyid : List UInt8)
  deriving DecidableEq

/-- The name of the file of an owner. -/
def ownerName : Owner → Text
  | .uid uid => uidName uid
  | .key keyid => keyName keyid

theorem ownerName_noSlash (o : Owner) : '/' ∉ ownerName o := by
  cases o with
  | uid uid =>
    intro h
    rcases mem_uidName h with h | h
    · exact absurd h (by decide)
    · exact absurd h (by decide)
  | key keyid => simp [ownerName, keyName, hexString_noSlash]

theorem ownerName_injective : Function.Injective ownerName := by
  have hmixed : ∀ u k, uidName u ≠ keyName k := by
    intro u k h
    have hk : 'k' ∈ uidName u := by
      rw [h]
      exact mem_cons_self
    rcases mem_uidName hk with hk | hk
    · exact absurd hk (by decide)
    · exact absurd hk (by decide)
  intro o o' h
  cases o with
  | uid u =>
    cases o' with
    | uid v => rw [uidName_injective h]
    | key k => exact absurd h (hmixed u k)
  | key k =>
    cases o' with
    | uid v => exact absurd h.symm (hmixed v k)
    | key k' => rw [hexString_injective (List.cons.inj h).2]

/-- No two paths and owners share a file. -/
theorem file_injective {path path' d d' : Text} {o o' : Owner} (h : convertUserPath root path false = .ok d)
    (h' : convertUserPath root path' false = .ok d')
    (heq : fileIn d (ownerName o) = fileIn d' (ownerName o')) : path = path' ∧ o = o' := by
  obtain ⟨cs, hne, hcs, rfl, rfl⟩ := convertUserPath_file h
  obtain ⟨ds, hne', hds, rfl, rfl⟩ := convertUserPath_file h'
  have hjoin : ∀ (cs : List Text) (o : Owner), fileIn (root ++ joinSlash (leafDir cs)) (ownerName o) =
      root ++ joinSlash (leafDir cs ++ [ownerName o]) := by
    intro cs o
    simp [fileIn]
  rw [hjoin, hjoin] at heq
  have hno : ∀ {cs : List Text} {o : Owner}, (∀ c ∈ cs, GoodComp c) → cs ≠ [] →
      ∀ c ∈ leafDir cs ++ [ownerName o], '/' ∉ c := by
    intro cs o hcs hne c hc
    rcases mem_append.mp hc with hc | hc
    · exact leafDir_noSlash hcs hne c hc
    · rw [mem_singleton.mp hc]
      exact ownerName_noSlash o
  have hsplit := joinSlash_injective (hno hcs hne) (hno hds hne') (append_cancel_left heq)
  obtain ⟨hdir, hname⟩ := append_inj' hsplit rfl
  exact ⟨by rw [leafDir_injective hne hne' hdir], ownerName_injective (List.cons.inj hname).1⟩

end Anoubis.Daemon.Sfs

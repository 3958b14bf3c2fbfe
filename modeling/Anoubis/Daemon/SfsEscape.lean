import Anoubis.Daemon.SfsPath

/-! What `__convert_user_path` makes of the paths that users name (`sfs.c`).

    The path of a file and the path of a directory come from the user, and the result is a directory of
    the tree. Stars are doubled in every component, and the one more star of a file makes their number
    odd, so that the directories of the tree for files, for directories and on the way do not meet:

        file /a/ *b   ROOT/a/ ***b    odd: nothing but the checksums of this file is below
        dir  /a/ *b   ROOT/a/ **b     even: files and directories below /a/ *b
        dir  /        ROOT/           the root itself                                            -/

namespace Anoubis.Daemon.Sfs

open List

open Anoubis.Apn (joinSlash GoodComp Canonical render exists_joinSlash joinSlash_append)

/-- What stands behind the last slash. -/
def lastComp (p : Text) : Text := (p.reverse.takeWhile (· ≠ '/')).reverse

/-- The size that `insert_escape_seq` allocates. -/
def escapeBuffer (path : Text) : ℕ := path.length + (1 + path.count '*') + 1

/-- The paths a user may name: canonical ones, and the root only as a directory. -/
def UserPath (path : Text) (isDir : Bool) : Prop := Canonical path ∧ (path = ['/'] → isDir = true)

/-- The directory is the other one or above it. -/
def Above (d d' : Text) : Prop := d = d' ∨ d ++ ['/'] <+: d'

/-- The directory is below the root: no component leads up or stays where it is. -/
def Below (root d : Text) : Prop := ∃ ts, ts ≠ [] ∧ (∀ t ∈ ts, GoodComp t) ∧ d = root ++ joinSlash ts

variable {cs ds : List Text} {path root d : Text} {isDir : Bool}

/-! ### Accepted paths -/

variable {c s : Text} {ps ts : List Text} {a b : Char}

/-- A component behind a slash is one of the components. -/
theorem mem_of_join {p : Text} {qs : List Text} (hcs : ∀ a ∈ cs, '/' ∉ a) (hp : '/' ∉ p) (hps : ∀ a ∈ ps, '/' ∉ a)
    (hc : '/' ∉ c) (hqs : ∀ a ∈ qs, '/' ∉ a) (h : p ++ joinSlash (ps ++ c :: qs) = joinSlash cs) : c ∈ cs := by
  cases p with
  | cons a p =>
    cases cs with
    | nil => simp at h
    | cons b cs =>
      simp only [Apn.joinSlash_cons, cons_append, List.cons.injEq] at h
      exact absurd (h.1 ▸ mem_cons_self) hp
  | nil =>
    have hall : ∀ a ∈ ps ++ c :: qs, '/' ∉ a :=
      forall_mem_append.mpr ⟨hps, forall_mem_cons.mpr ⟨hc, hqs⟩⟩
    rw [← joinSlash_injective hall hcs h]
    exact mem_append_right _ mem_cons_self

theorem mem_of_inner (hcs : ∀ a ∈ cs, '/' ∉ a) (hc : '/' ∉ c) (h : '/' :: c ++ ['/'] <:+: joinSlash cs) : c ∈ cs := by
  obtain ⟨pre, post, h⟩ := h
  obtain ⟨p, ps, rfl, hp, hps⟩ := exists_joinSlash pre
  obtain ⟨q, qs, rfl, hq, hqs⟩ := exists_joinSlash post
  refine mem_of_join hcs hp hps hc (forall_mem_cons.mpr ⟨hq, hqs⟩) ?_
  rw [← h]
  simp

theorem mem_of_last {pre : Text} (hcs : ∀ a ∈ cs, '/' ∉ a) (hc : '/' ∉ c) (h : pre ++ '/' :: c = joinSlash cs) :
    c ∈ cs := by
  obtain ⟨p, ps, rfl, hp, hps⟩ := exists_joinSlash pre
  refine mem_of_join hcs hp hps hc (forall_mem_nil _) ?_
  rw [← h]
  simp

theorem drop_of_getElem? {k : ℕ} (h : s[k]? = some a) : s.drop k = a :: s.drop (k + 1) := by
  obtain ⟨hk, rfl⟩ := List.getElem?_eq_some_iff.mp h
  exact List.drop_eq_getElem_cons hk

/-- The last two characters. -/
theorem eq_take_append_two (hab : a ≠ b) (hb : s[s.length - 1]? = some b) (ha : s[s.length - 1 - 1]? = some a) :
    s = s.take (s.length - 2) ++ [a, b] := by
  have hlen : 2 ≤ s.length := by
    by_contra hlt
    have hsame : s.length - 1 - 1 = s.length - 1 := by omega
    rw [hsame, hb] at ha
    exact hab (Option.some.inj ha).symm
  have htwo : s.length - 2 + 1 = s.length - 1 := by omega
  have hone : s.length - 1 + 1 = s.length := by omega
  rw [Nat.sub_sub] at ha
  have hdrop := drop_of_getElem? ha
  rw [htwo, drop_of_getElem? hb, hone, drop_length] at hdrop
  rw [← hdrop, take_append_drop]

/-- The last three characters, if the last two are the same. -/
theorem eq_take_append_three (hab : a ≠ b) (hb : s[s.length - 1]? = some b) (hb' : s[s.length - 1 - 1]? = some b)
    (ha : s[s.length - 1 - 2]? = some a) : s = s.take (s.length - 3) ++ [a, b, b] := by
  have hlen : 3 ≤ s.length := by
    by_contra hlt
    have hsame : s.length - 1 - 2 = s.length - 1 - 1 := by omega
    rw [hsame, hb'] at ha
    exact hab (Option.some.inj ha).symm
  have hthree : s.length - 3 + 1 = s.length - 2 := by omega
  have htwo : s.length - 2 + 1 = s.length - 1 := by omega
  have hone : s.length - 1 + 1 = s.length := by omega
  rw [Nat.sub_sub] at ha hb'
  have hdrop := drop_of_getElem? ha
  rw [hthree, drop_of_getElem? hb', htwo, drop_of_getElem? hb, hone, drop_length] at hdrop
  rw [← hdrop, take_append_drop]

/-- No check refuses a path of good components. -/
theorem convertUserPath_good (hcs : ∀ c ∈ cs, GoodComp c) (hne : cs ≠ []) :
    convertUserPath root (joinSlash cs) isDir = .ok (root ++ insertEscapeSeq (joinSlash cs) isDir) := by
  have hno : ∀ c ∈ cs, '/' ∉ c := fun c hc => (hcs c hc).2.1
  have hinner : ∀ {c}, '/' ∉ c → '/' :: c ++ ['/'] <:+: joinSlash cs → GoodComp c :=
    fun hc h => hcs _ (mem_of_inner hno hc h)
  have hlast : ∀ {pre c}, '/' ∉ c → joinSlash cs = pre ++ '/' :: c → GoodComp c :=
    fun hc h => hcs _ (mem_of_last hno hc h.symm)
  have hempty : ¬ GoodComp [] := fun h => h.1 rfl
  have hdot : ¬ GoodComp ['.'] := fun h => h.2.2.1 rfl
  have hdotdot : ¬ GoodComp ['.', '.'] := fun h => h.2.2.2 rfl
  have hhead : (joinSlash cs).head? = some '/' := by
    cases cs with
    | nil => exact absurd rfl hne
    | cons c cs => rfl
  generalize joinSlash cs = p at *
  have h₁ : ¬ "/../".toList <:+: p := fun h => hdotdot (hinner (by decide) h)
  have h₂ : ¬ "/./".toList <:+: p := fun h => hdot (hinner (by decide) h)
  have h₃ : ¬ "//".toList <:+: p := fun h => hempty (hinner (c := []) (by simp) h)
  have hone : ∀ {c : Text}, '/' ∉ c → p = '/' :: c → GoodComp c := fun hc h => hlast hc (h.trans (nil_append _).symm)
  rw [convertUserPath, if_neg (by rw [hhead]; simp), if_neg h₁, if_neg h₂, if_neg h₃, if_neg, if_neg, if_neg]
  · rintro ⟨hslash, -⟩
    rw [← getLast?_eq_getElem?] at hslash
    obtain ⟨pre, hpre⟩ := getLast?_eq_some_iff.mp hslash
    exact hempty (hlast (by simp) hpre)
  · rintro ⟨h₁, h₂ | ⟨h₂, h₃⟩⟩
    · exact hdot (hlast (by decide) (eq_take_append_two (by decide) h₁ h₂))
    · exact hdotdot (hlast (by decide) (eq_take_append_three (by decide) h₁ h₂ h₃))
  · have hfirst : p[0]? = some '/' := by rw [← head?_eq_getElem?, hhead]
    have hp := drop_of_getElem? hfirst
    rw [drop_zero] at hp
    rintro ⟨h₁, h₂ | ⟨h₂, h₃⟩⟩
    · rw [drop_of_getElem? h₁, drop_eq_nil_of_le (getElem?_eq_none_iff.mp h₂)] at hp
      exact hdot (hone (by decide) hp)
    · rw [drop_of_getElem? h₁, drop_of_getElem? h₂, drop_eq_nil_of_le (getElem?_eq_none_iff.mp h₃)] at hp
      exact hdotdot (hone (by decide) hp)

/-- The directory of the tree, by the components of the path. -/
def treeComps (cs : List Text) (isDir : Bool) : List Text :=
  if isDir then if cs = [] then [[]] else cs.map doubleStars else leafDir cs

/-- Which paths are accepted, and where they lead. -/
theorem convertUserPath_eq_ok_iff : convertUserPath root path isDir = .ok d ↔
    ∃ cs, (∀ c ∈ cs, GoodComp c) ∧ (cs = [] → isDir = true) ∧ path = render cs ∧
      d = root ++ joinSlash (treeComps cs isDir) := by
  constructor
  · intro h
    cases isDir with
    | false =>
      obtain ⟨cs, hne, hcs, rfl, rfl⟩ := convertUserPath_file h
      exact ⟨cs, hcs, fun hnil => absurd hnil hne, (if_neg hne).symm, rfl⟩
    | true =>
      obtain ⟨cs, hcs, rfl, rfl⟩ := convertUserPath_dir h
      refine ⟨cs, hcs, fun _ => rfl, rfl, ?_⟩
      by_cases hnil : cs = []
      · subst hnil
        rfl
      · rw [render, if_neg (by simpa using hnil), treeComps, if_pos rfl, if_neg hnil]
  · rintro ⟨cs, hcs, hroot, rfl, rfl⟩
    by_cases hnil : cs = []
    · subst hnil
      obtain rfl := hroot rfl
      rfl
    · rw [render, if_neg hnil, convertUserPath_good hcs hnil]
      cases isDir with
      | false => rw [insertEscapeSeq_file (fun c hc => (hcs c hc).2.1) hnil]; rfl
      | true => rw [insertEscapeSeq_dir, treeComps, if_pos rfl, if_neg hnil]

/-! ### Where the directories are -/

theorem treeComps_dir (cs : List Text) : treeComps cs true = if cs = [] then [[]] else cs.map doubleStars := rfl

theorem treeComps_ne_nil (h : cs = [] → isDir = true) : treeComps cs isDir ≠ [] := by
  cases isDir with
  | false =>
    have hne : cs ≠ [] := fun hnil => Bool.noConfusion (h hnil)
    simp [treeComps, leafDir]
  | true =>
    rw [treeComps_dir]
    by_cases hnil : cs = []
    · simp [hnil]
    · simp [hnil]

theorem treeComps_noSlash (hcs : ∀ c ∈ cs, GoodComp c) (h : cs = [] → isDir = true) :
    ∀ t ∈ treeComps cs isDir, '/' ∉ t := by
  cases isDir with
  | false => exact leafDir_noSlash hcs fun hnil => Bool.noConfusion (h hnil)
  | true =>
    rw [treeComps_dir]
    by_cases hnil : cs = []
    · simp [hnil]
    · rw [if_neg hnil]
      intro t ht
      obtain ⟨c, hc, rfl⟩ := mem_map.mp ht
      exact fun hs => (hcs c hc).2.1 (mem_doubleStars.mp hs)

/-- The name that ends the directory of a file is no component of another directory. -/
theorem leaf_unique {cs : List Text} (h : ps ++ ['*' :: doubleStars c] <+: treeComps cs isDir) :
    isDir = false ∧ treeComps cs isDir = ps ++ ['*' :: doubleStars c] := by
  have hmap : ∀ l : List Text, '*' :: doubleStars c ∉ l.map doubleStars := by
    intro l hmem
    obtain ⟨a, -, ha⟩ := mem_map.mp hmem
    exact doubleStars_ne_leaf a c ha
  have hleaf : '*' :: doubleStars c ∈ ps ++ ['*' :: doubleStars c] := by simp
  cases isDir with
  | true =>
    exfalso
    have hmem := h.subset hleaf
    rw [treeComps_dir] at hmem
    by_cases hnil : cs = []
    · simp [hnil] at hmem
    · rw [if_neg hnil] at hmem
      exact hmap cs hmem
  | false =>
    refine ⟨rfl, ?_⟩
    change _ <+: leafDir cs at h
    change leafDir cs = _
    rw [leafDir] at h ⊢
    -- the leaf does not fit into the components before the last one
    rcases prefix_concat_iff.mp h with heq | hpre
    · exact heq.symm
    · exact absurd (hpre.subset hleaf) (hmap _)

theorem treeComps_injective {ds : List Text} {isDir' : Bool} (hcs : ∀ c ∈ cs, GoodComp c)
    (hds : ∀ c ∈ ds, GoodComp c) (hc : cs = [] → isDir = true) (hd : ds = [] → isDir' = true)
    (h : treeComps cs isDir = treeComps ds isDir') : cs = ds ∧ isDir = isDir' := by
  have hfile : ∀ {cs ds : List Text} {b : Bool}, treeComps cs false = treeComps ds b → b = false := by
    intro cs ds b heq
    have hpre : leafDir cs <+: treeComps ds b := by
      rw [← heq]
      exact prefix_rfl
    exact (leaf_unique hpre).1
  have hroot : ∀ {cs : List Text}, (∀ c ∈ cs, GoodComp c) → cs.map doubleStars ≠ [[]] := by
    intro cs hcs hmap
    obtain ⟨a, rfl, ha⟩ := map_eq_singleton_iff.mp hmap
    exact (hcs a mem_cons_self).1 (doubleStars_injective ha)
  cases isDir with
  | false =>
    obtain rfl := hfile h
    exact ⟨leafDir_injective (fun hnil => Bool.noConfusion (hc hnil)) (fun hnil => Bool.noConfusion (hd hnil)) h, rfl⟩
  | true =>
    cases isDir' with
    | false => exact Bool.noConfusion (hfile h.symm)
    | true =>
      rw [treeComps_dir, treeComps_dir] at h
      refine ⟨?_, rfl⟩
      by_cases hcnil : cs = []
      · by_cases hdnil : ds = []
        · rw [hcnil, hdnil]
        · rw [if_pos hcnil, if_neg hdnil] at h
          exact absurd h.symm (hroot hds)
      · by_cases hdnil : ds = []
        · rw [if_neg hcnil, if_pos hdnil] at h
          exact absurd h (hroot hcs)
        · rw [if_neg hcnil, if_neg hdnil] at h
          exact map_injective_iff.mpr doubleStars_injective h

/-- A directory above another one is a prefix of its components. -/
theorem prefix_of_above {us : List Text} (hts : ∀ t ∈ ts, '/' ∉ t) (hus : ∀ u ∈ us, '/' ∉ u)
    (h : Above (root ++ joinSlash ts) (root ++ joinSlash us)) : ts <+: us := by
  rcases h with heq | ⟨post, hpost⟩
  · rw [joinSlash_injective hts hus (append_cancel_left heq)]
  · obtain ⟨p, ps, rfl, hp, hps⟩ := exists_joinSlash post
    have hjoin : joinSlash (ts ++ p :: ps) = joinSlash us := by
      rw [append_assoc, append_assoc, append_cancel_left_eq] at hpost
      rw [← hpost]
      simp
    have hall : ∀ t ∈ ts ++ p :: ps, '/' ∉ t := by
      simp only [mem_append, mem_cons]
      rintro t (ht | rfl | ht)
      · exact hts t ht
      · exact hp
      · exact hps t ht
    exact ⟨p :: ps, joinSlash_injective hall hus hjoin⟩

theorem goodComp_doubleStars (h : GoodComp c) : GoodComp (doubleStars c) := by
  refine ⟨fun hnil => h.1 (doubleStars_injective hnil), fun hs => h.2.1 (mem_doubleStars.mp hs), ?_, ?_⟩
  · exact fun heq => h.2.2.1 (doubleStars_injective heq)
  · exact fun heq => h.2.2.2 (doubleStars_injective heq)

theorem goodComp_leaf (h : '/' ∉ c) : GoodComp ('*' :: doubleStars c) := by
  refine ⟨by simp, ?_, by simp, by simp⟩
  simpa using fun hs => h (mem_doubleStars.mp hs)

/-- Only the root is not below the root. -/
theorem treeComps_good (hcs : ∀ c ∈ cs, GoodComp c) (hne : cs ≠ []) : ∀ t ∈ treeComps cs isDir, GoodComp t := by
  have hmap : ∀ l : List Text, (∀ c ∈ l, c ∈ cs) → ∀ t ∈ l.map doubleStars, GoodComp t := by
    intro l hl t ht
    obtain ⟨c, hc, rfl⟩ := mem_map.mp ht
    exact goodComp_doubleStars (hcs c (hl c hc))
  cases isDir with
  | true =>
    rw [treeComps_dir, if_neg hne]
    exact hmap cs fun c hc => hc
  | false =>
    intro t ht
    rcases mem_append.mp ht with ht | ht
    · exact hmap cs.dropLast (fun c hc => mem_of_mem_dropLast hc) t ht
    · rw [mem_singleton.mp ht]
      refine goodComp_leaf ?_
      rw [getLastD_eq_getLast?, getLast?_eq_some_getLast hne]
      exact (hcs _ (getLast_mem hne)).2.1

/-! ### Sizes and the way back -/

theorem length_doubleStars (s : Text) : (doubleStars s).length = s.length + s.count '*' := by
  induction s with
  | nil => rfl
  | cons a s ih =>
    rw [doubleStars_cons, length_append, ih, count_cons, length_cons]
    by_cases ha : a = '*'
    · subst ha
      simp only [if_true, length_cons, length_nil, beq_self_eq_true]
      omega
    · rw [if_neg ha, if_neg (by simpa using ha), length_singleton]
      omega

/-- The new string and its NUL fit, and the star of a file uses the last byte. -/
theorem insertEscapeSeq_fits (path : Text) (isDir : Bool) :
    (insertEscapeSeq path isDir).length + 1 ≤ escapeBuffer path := by
  have hlen := length_doubleStars path
  rw [insertEscapeSeq, escapeBuffer]
  cases isDir with
  | true =>
    simp only [if_true]
    omega
  | false =>
    simp only [Bool.false_eq_true, if_false, length_append, length_cons, length_take, length_drop]
    omega

theorem unescape_doubleStars (junk : Char) (s : Text) : unescape junk (doubleStars s) = s := by
  induction s with
  | nil => rfl
  | cons a s ih =>
    rw [doubleStars_cons]
    by_cases ha : a = '*'
    · subst ha
      rw [if_pos rfl]
      exact congrArg ('*' :: ·) ih
    · rw [if_neg ha, singleton_append, unescape, ih]
      · simp [ha]
      · simp [ha]

theorem removeEscapeSeq_dir (junk : Char) (c : Text) : removeEscapeSeq junk (doubleStars c) = c ++ ['/'] := by
  rw [removeEscapeSeq, count_doubleStars, if_neg (by omega), unescape_doubleStars]

theorem removeEscapeSeq_file (junk : Char) (c : Text) : removeEscapeSeq junk ('*' :: doubleStars c) = c := by
  rw [removeEscapeSeq, count_cons_self, count_doubleStars, if_pos (by omega), tail_cons, unescape_doubleStars]

theorem lastComp_join (a : Text) (h : ∀ t ∈ ts, '/' ∉ t) (hne : ts ≠ []) :
    lastComp (a ++ joinSlash ts) = ts.getLastD [] := by
  rcases eq_nil_or_concat ts with rfl | ⟨us, t, rfl⟩
  · exact absurd rfl hne
  · have ht : ∀ c ∈ t.reverse, decide (c ≠ '/') = true := by
      intro c hc
      refine decide_eq_true ?_
      rintro rfl
      exact h t (by simp) (mem_reverse.mp hc)
    have hrev : (a ++ joinSlash (us ++ [t])).reverse = t.reverse ++ '/' :: (a ++ joinSlash us).reverse := by
      simp
    rw [concat_eq_append, lastComp, hrev, takeWhile_append_of_pos ht,
      takeWhile_cons_of_neg (by simp), append_nil, reverse_reverse, getLastD_concat]

theorem lastComp_render (hcs : ∀ c ∈ cs, GoodComp c) : lastComp (render cs) = cs.getLastD [] := by
  rw [render]
  by_cases hnil : cs = []
  · subst hnil
    rfl
  · rw [if_neg hnil]
    exact lastComp_join [] (fun c hc => (hcs c hc).2.1) hnil

/-- The last component of the directory leads back to the last component of the path. -/
theorem removeEscapeSeq_last (junk : Char) (hcs : ∀ c ∈ cs, GoodComp c) (h : cs = [] → isDir = true) :
    removeEscapeSeq junk (lastComp (root ++ joinSlash (treeComps cs isDir))) =
      lastComp (render cs) ++ if isDir then ['/'] else [] := by
  rw [lastComp_join root (treeComps_noSlash hcs h) (treeComps_ne_nil h), lastComp_render hcs]
  cases isDir with
  | false =>
    have hlast : (treeComps cs false).getLastD [] = '*' :: doubleStars (cs.getLastD []) := getLastD_concat ..
    rw [hlast, removeEscapeSeq_file]
    exact (append_nil _).symm
  | true =>
    rw [treeComps_dir]
    by_cases hnil : cs = []
    · subst hnil
      rfl
    · have hlast : (cs.map doubleStars).getLastD [] = doubleStars (cs.getLastD []) := by
        rw [getLastD_eq_getLast?, getLastD_eq_getLast?, getLast?_map, getLast?_eq_some_getLast hnil]
        rfl
      rw [if_neg hnil, hlast, removeEscapeSeq_dir]
      rfl

/-! ### All paths -/

theorem render_injective (hcs : ∀ c ∈ cs, GoodComp c) (hds : ∀ c ∈ ds, GoodComp c) (h : render cs = render ds) :
    cs = ds := by
  have hroot : ∀ {cs : List Text}, (∀ c ∈ cs, GoodComp c) → render cs = ['/'] → cs = [] := by
    intro cs hcs hr
    by_contra hne
    rw [render, if_neg hne] at hr
    have hslash : joinSlash cs = joinSlash [[]] := hr
    rw [joinSlash_injective (fun c hc => (hcs c hc).2.1) (by simp) hslash] at hcs
    exact (hcs [] mem_cons_self).1 rfl
  by_cases hdnil : ds = []
  · subst hdnil
    exact hroot hcs h
  · by_cases hcnil : cs = []
    · subst hcnil
      exact (hroot hds h.symm).symm
    · rw [render, render, if_neg hcnil, if_neg hdnil] at h
      exact joinSlash_injective (fun c hc => (hcs c hc).2.1) (fun c hc => (hds c hc).2.1) h

/-- Exactly the paths a user may name are accepted. -/
theorem accepted_iff (root path : Text) (isDir : Bool) :
    (∃ d, convertUserPath root path isDir = .ok d) ↔ UserPath path isDir := by
  constructor
  · rintro ⟨d, h⟩
    obtain ⟨cs, hcs, hroot, rfl, -⟩ := convertUserPath_eq_ok_iff.mp h
    exact ⟨⟨cs, rfl, hcs⟩, fun heq => hroot (render_injective hcs (by simp) heq)⟩
  · rintro ⟨⟨cs, rfl, hcs⟩, hroot⟩
    exact ⟨_, convertUserPath_eq_ok_iff.mpr ⟨cs, hcs, fun hnil => hroot (by rw [hnil]; rfl), rfl, rfl⟩⟩

/-- Exactly the canonical paths are accepted, the root only as a directory. Different paths, and a file
    and a directory of one path, lead to different directories, and no directory for a file is above
    another one. The root leads to the root of the tree and all others below it. The escaped path fits
    the buffer, and its last component leads back to the last component of the path. -/
theorem user_paths (root : Text) :
    (∀ path isDir, (∃ d, convertUserPath root path isDir = .ok d) ↔ UserPath path isDir) ∧
    ∀ path isDir d, convertUserPath root path isDir = .ok d →
      (∀ path' isDir' d', convertUserPath root path' isDir' = .ok d' →
        (d = d' → path = path' ∧ isDir = isDir') ∧
        (isDir = false → ¬ (path' = path ∧ isDir' = isDir) → ¬ Above d d')) ∧
      (if path = ['/'] then d = root ++ ['/'] else Below root d) ∧
      (insertEscapeSeq path isDir).length + 1 ≤ escapeBuffer path ∧
      ∀ junk, removeEscapeSeq junk (lastComp d) = lastComp path ++ if isDir then ['/'] else [] := by
  refine ⟨accepted_iff root, fun path isDir d h => ?_⟩
  obtain ⟨cs, hcs, hc, rfl, rfl⟩ := convertUserPath_eq_ok_iff.mp h
  refine ⟨fun path' isDir' d' h' => ?_, ?_, insertEscapeSeq_fits _ _, fun junk => removeEscapeSeq_last junk hcs hc⟩
  · obtain ⟨ds, hds, hd, rfl, rfl⟩ := convertUserPath_eq_ok_iff.mp h'
    have hsame : treeComps cs isDir = treeComps ds isDir' → render cs = render ds ∧ isDir = isDir' := by
      intro heq
      obtain ⟨rfl, rfl⟩ := treeComps_injective hcs hds hc hd heq
      exact ⟨rfl, rfl⟩
    refine ⟨fun heq => hsame ?_, ?_⟩
    · exact joinSlash_injective (treeComps_noSlash hcs hc) (treeComps_noSlash hds hd) (List.append_cancel_left heq)
    · rintro rfl hne habove
      have hpre := prefix_of_above (treeComps_noSlash hcs hc) (treeComps_noSlash hds hd) habove
      obtain ⟨hpath, hdir⟩ := hsame (leaf_unique hpre).2.symm
      exact hne ⟨hpath.symm, hdir.symm⟩
  · by_cases hnil : cs = []
    · subst hnil
      obtain rfl := hc rfl
      exact (if_pos rfl).mpr rfl
    · have hne : ¬ render cs = ['/'] := fun heq => hnil (render_injective hcs (by simp) heq)
      rw [if_neg hne]
      exact ⟨_, treeComps_ne_nil hc, treeComps_good hcs hnil, rfl⟩

/-- The file "/ *" and the directory "/". -/
theorem user_paths_star : convertUserPath "/sfs".toList "/*".toList false = .ok "/sfs/***".toList ∧
    ¬ Above "/sfs/***".toList "/sfs/".toList := by
  have hfile : convertUserPath "/sfs".toList "/*".toList false = .ok "/sfs/***".toList := by decide
  have hroot : convertUserPath "/sfs".toList "/".toList true = .ok "/sfs/".toList := by decide
  exact ⟨hfile, (((user_paths "/sfs".toList).2 _ _ _ hfile).1 _ _ _ hroot).2 rfl (by decide)⟩

/-- The directory of "/" is the root of the tree and not below it. -/
theorem root_not_below : ¬ ∀ (root path d : Text) (isDir : Bool),
    convertUserPath root path isDir = .ok d → Below root d := by
  intro h
  obtain ⟨ts, -, hts, heq⟩ := h "/sfs".toList "/".toList "/sfs/".toList true (by decide)
  have hslash : "/sfs".toList ++ joinSlash [[]] = "/sfs".toList ++ joinSlash ts := heq
  rw [← joinSlash_injective (by simp) (fun t ht => (hts t ht).2.1) (List.append_cancel_left hslash)] at hts
  exact (hts [] List.mem_cons_self).1 rfl

end Anoubis.Daemon.Sfs

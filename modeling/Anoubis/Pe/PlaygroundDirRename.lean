import Anoubis.Lib.Reads
import Anoubis.Pe.PlaygroundNames

/-! The names in a renamed directory (`pe_playground_rename_dir_one_file`).

    The names in a file are read into a buffer of PATH_MAX bytes. `p` is the start of the current name, `endp` the end
    of the bytes that were read. Where a name goes on beyond `endp`, it is moved to the start of the buffer to read
    the rest of it, but `p` stays where it was.

        / a 0 / b c│             p = 3, endp = 6
        / b c│                   p = 3, endp = 3
        / b c d e 0│             p = 3: the name is "de"

    So what the pieces are that read(2) returns makes a difference. Out of memory and calls that fail are left out. -/

namespace Anoubis.Pe.Pg

open Option

open Anoubis.Lib List
open Slot (nameFile nameFile_cons nameFile_readNames readNames readNames_nameFile)

/-! ### The scan -/

/-- PATH_MAX, the size of the buffer. -/
def pathMax : ℕ := 4096

/-- The buffer up to `endp`, `p` in it, and `files`. What stands behind `endp` is overwritten before it is read. -/
structure NameBuf where
  data : List UInt8
  p : ℕ
  files : List CString
  deriving DecidableEq

/-- How far it is to the NUL that `memchr` finds. -/
def memchrNul (bs : List UInt8) : Option ℕ :=
  if (cString bs).length < bs.length then some (cString bs).length else none

/-- What goes into `files` for a name. -/
def matchName (newPath oldPath name : CString) : Option CString :=
  if name.length > oldPath.length ∧ name.take oldPath.length = oldPath then
    some (newPath ++ cLit "/" ++ name.drop oldPath.length)
  else none

/-- How the inner loop ends. -/
inductive Scan where
  | next (b : NameBuf)
  | tooLong
  deriving DecidableEq

/-- The inner loop. It is `none` if there are more rounds. -/
def scanNames (newPath oldPath : CString) : ℕ → NameBuf → Option Scan
  | 0, _ => none
  | rounds + 1, b =>
    if b.data.length > b.p then
      match memchrNul (b.data.drop b.p) with
      | none =>
        if b.p = 0 then some .tooLong
        else some (.next { b with data := b.data.drop b.p }) -- memmove; `p` is not set
      | some len =>
        let found := matchName newPath oldPath (cString (b.data.drop b.p))
        scanNames newPath oldPath rounds { b with p := b.p + len + 1, files := b.files ++ found.toList }
    else some (.next b)

/-- The loop around read(2): `files` at its end. -/
def readNameFile (newPath oldPath : CString) : ℕ → Source UInt8 → NameBuf → Option (List CString)
  | 0, _, _ => none
  | rounds + 1, f, b =>
    let r := f.read (pathMax - b.data.length)
    if r.1 = [] then some b.files
    else
      match scanNames newPath oldPath ((b.data ++ r.1).length + 1) { b with data := b.data ++ r.1 } with
      | none => none
      | some .tooLong => some [] -- returns without a call
      | some (.next b) => readNameFile newPath oldPath rounds r.2 b

/-- `pe_playground_rename_dir_one_file`: the paths in its calls of `pe_playground_file_add`, in their order. The old
    path ends with a slash. It is `none` if the function does not return. -/
def renameDirOneFile (newPath oldPath : CString) (f : Source UInt8) : Option (List CString) :=
  readNameFile newPath oldPath (f.rest.length + 1) f ⟨[], 0, []⟩

/-! ### The names in the directory -/

/-- The new name of a file in the directory `old`. -/
def renamed (new old name : CString) : Option CString := matchName new (old ++ cLit "/") name

variable {name : CString} {names : List CString} {rounds : ℕ}

/-- It has a new name if it is in the directory. -/
theorem renamed_eq_some_iff {new old path : CString} : renamed new old name = some path ↔
    ∃ rest, rest ≠ [] ∧ name = old ++ cLit "/" ++ rest ∧ path = new ++ cLit "/" ++ rest := by
  rw [renamed, matchName]
  constructor
  · intro h
    obtain ⟨⟨hlen, htake⟩, hpath⟩ := ite_none_right_eq_some.mp h
    refine ⟨name.drop (old ++ cLit "/").length, ?_, ?_, (some.inj hpath).symm⟩
    · exact fun hnil => absurd (drop_eq_nil_iff.mp hnil) (Nat.not_le_of_gt hlen)
    · have happ := take_append_drop (old ++ cLit "/").length name
      rw [htake] at happ
      exact happ.symm
  · rintro ⟨rest, hrest, rfl, rfl⟩
    have := length_pos_of_ne_nil hrest
    rw [if_pos ⟨by simp [length_append]; omega, take_left⟩, drop_left]

/-- The function does what it is for. -/
def RenamesAll (names : List CString) (cuts : List ℕ) (new old : CString) : Prop :=
  renameDirOneFile new (old ++ cLit "/") ⟨nameFile names [], cuts⟩ = some (names.filterMap (renamed new old))

instance (names : List CString) (cuts : List ℕ) (new old : CString) : Decidable (RenamesAll names cuts new old) :=
  inferInstanceAs (Decidable (_ = _))

/-- Every piece of the file ends with a NUL. -/
def WholeNames : List ℕ → List UInt8 → Prop
  | [], _ => True
  | c :: cuts, bytes => bytes = [] ∨ ((bytes.take (c + 1)).getLast? = some 0 ∧ WholeNames cuts (bytes.drop (c + 1)))

/-! ### One piece -/

variable {newPath oldPath : CString} {b : NameBuf} {f : Source UInt8}

/-- The bytes of the names, with their NUL. -/
def size (names : List CString) : ℕ := (names.flatMap cBytes).length

theorem size_cons (name : CString) (names : List CString) : size (name :: names) = name.length + 1 + size names := by
  rw [size, flatMap_cons, length_append, length_cBytes, size]

theorem size_append (names names' : List CString) : size (names ++ names') = size names + size names' := by
  rw [size, flatMap_append, length_append, size, size]

theorem length_le_size (names : List CString) : names.length ≤ size names := by
  induction names with
  | nil => exact le_rfl
  | cons name names ih =>
    rw [length_cons, size_cons]
    omega

theorem length_nameFile (names : List CString) (rest : CString) :
    (nameFile names rest).length = size names + rest.length := by
  rw [nameFile, length_append, length_map, size]

theorem nameFile_append (names names' : List CString) (rest : CString) :
    nameFile (names ++ names') rest = nameFile names [] ++ nameFile names' rest := by
  rw [nameFile, nameFile, nameFile, flatMap_append, map_nil, append_nil, append_assoc]

theorem memchrNul_name (name : CString) (bs : List UInt8) : memchrNul (cBytes name ++ bs) = some name.length := by
  rw [memchrNul, cString_cBytes, if_pos]
  rw [length_append, length_cBytes]
  omega

theorem memchrNul_rest (rest : CString) : memchrNul (rest.map Subtype.val) = none := by
  have hrest : cString (rest.map Subtype.val) = rest := by
    induction rest with
    | nil => rfl
    | cons c rest ih => rw [map_cons, cString, dif_neg c.2, ih]
  rw [memchrNul, hrest, if_neg]
  rw [length_map]
  exact lt_irrefl _

variable {bs : List UInt8} {rest : CString} {n : ℕ} {files : List CString}

theorem drop_name {data : List UInt8} {p : ℕ} (h : data.drop p = cBytes name ++ bs) :
    data.drop (p + name.length + 1) = bs := by
  rw [add_assoc, ← drop_drop, h, drop_cBytes]

/-- What the inner loop leaves: `p` is behind the last NUL. -/
def scanned (newPath oldPath : CString) (b : NameBuf) (names : List CString) (rest : CString) : Scan :=
  let p := b.p + size names
  let files := b.files ++ names.filterMap (matchName newPath oldPath)
  if rest = [] then .next ⟨b.data, p, files⟩
  else if p = 0 then .tooLong
  else .next ⟨b.data.drop p, p, files⟩

theorem scanNames_spec (h : b.data.drop b.p = nameFile names rest) (hrounds : names.length < rounds) :
    scanNames newPath oldPath rounds b = some (scanned newPath oldPath b names rest) := by
  induction names generalizing b rounds with
  | nil =>
    obtain ⟨rounds, rfl⟩ := Nat.exists_eq_add_one.mpr hrounds
    have hdrop : b.data.drop b.p = rest.map Subtype.val := h
    rw [scanNames, scanned, filterMap_nil, append_nil]
    by_cases hrest : rest = []
    · have hle : b.data.length ≤ b.p := by
        rw [hrest] at hdrop
        exact drop_eq_nil_iff.mp hdrop
      rw [if_neg (not_lt.mpr hle), if_pos hrest]
      rfl
    · have hlt : b.p < b.data.length := by
        refine not_le.mp fun hle => hrest ?_
        rw [drop_eq_nil_iff.mpr hle] at hdrop
        exact map_eq_nil_iff.mp hdrop.symm
      rw [if_pos hlt, hdrop, memchrNul_rest, if_neg hrest, ← hdrop]
      change (if b.p = 0 then _ else _) = some (if b.p = 0 then _ else _)
      split <;> rfl
  | cons name names ih =>
    obtain ⟨rounds, rfl⟩ := Nat.exists_eq_add_one.mpr (Nat.zero_lt_of_lt hrounds)
    rw [nameFile_cons] at h
    have hlt : b.p < b.data.length := by
      have := congrArg List.length h
      rw [length_drop, length_append, length_cBytes] at this
      omega
    rw [scanNames, if_pos hlt, h, memchrNul_name, cString_cBytes]
    dsimp only
    rw [ih (drop_name h) (Nat.lt_of_succ_lt_succ hrounds), scanned, scanned, size_cons]
    have hfiles : (matchName newPath oldPath name).toList ++ names.filterMap (matchName newPath oldPath) =
        (name :: names).filterMap (matchName newPath oldPath) := by
      rw [filterMap_cons]
      cases matchName newPath oldPath name <;> rfl
    simp only [add_assoc, append_assoc, hfiles]

/-- The inner loop ends, whatever is in the buffer. -/
theorem scanNames_eq (newPath oldPath : CString) (data : List UInt8) (p : ℕ) (files : List CString) :
    scanNames newPath oldPath (data.length + 1) ⟨data, p, files⟩ =
      some (scanned newPath oldPath ⟨data, p, files⟩ (readNames (data.drop p)).1 (readNames (data.drop p)).2) := by
  refine scanNames_spec (nameFile_readNames _).symm ?_
  have hlen := congrArg List.length (nameFile_readNames (data.drop p))
  rw [length_nameFile, length_drop] at hlen
  have := length_le_size (readNames (data.drop p)).1
  omega

/-! ### A file of whole pieces -/

theorem wholeNames_nil (cuts : List ℕ) : WholeNames cuts [] := by
  cases cuts with
  | nil => trivial
  | cons c cuts => exact .inl rfl

/-- Bytes end with a NUL if they are names only. -/
theorem getLast?_nameFile (h : nameFile names rest ≠ []) : (nameFile names rest).getLast? = some 0 ↔ rest = [] := by
  constructor
  · intro hlast
    by_contra hrest
    have hne : rest.map Subtype.val ≠ [] := fun hnil => hrest (map_eq_nil_iff.mp hnil)
    rw [nameFile, getLast?_append_of_ne_nil _ hne] at hlast
    obtain ⟨c, -, hc⟩ := mem_map.mp (mem_of_getLast? hlast)
    exact c.2 hc
  · rintro rfl
    rcases eq_nil_or_concat names with rfl | ⟨names, name, rfl⟩
    · exact absurd rfl h
    · rw [nameFile, concat_eq_append, flatMap_append, flatMap_singleton, map_nil, append_nil,
        cBytes, ← append_assoc, getLast?_concat]

/-- Names that are cut behind a NUL. -/
theorem nameFile_split {bs' : List UInt8} (h : nameFile names [] = bs ++ bs') (hlast : bs.getLast? = some 0) :
    ∃ ns ns', names = ns ++ ns' ∧ bs = nameFile ns [] ∧ bs' = nameFile ns' [] := by
  have hbs := nameFile_readNames bs
  have hbs' := nameFile_readNames bs'
  have hne : nameFile (readNames bs).1 (readNames bs).2 ≠ [] := by
    rw [hbs]
    rintro rfl
    cases hlast
  have hrest : (readNames bs).2 = [] := (getLast?_nameFile hne).mp (by rw [hbs]; exact hlast)
  rw [hrest] at hbs
  have happ : nameFile names [] = nameFile ((readNames bs).1 ++ (readNames bs').1) (readNames bs').2 := by
    rw [h, nameFile_append, hbs, hbs']
  have heq := congrArg readNames happ
  rw [readNames_nameFile, readNames_nameFile] at heq
  obtain ⟨hnames, hrest'⟩ := Prod.mk.inj heq
  rw [← hrest'] at hbs'
  exact ⟨_, _, hnames, hbs.symm, hbs'.symm⟩

/-- With room for the rest of the file only `cuts` limits the call. -/
theorem read_room {c : ℕ} {cuts : List ℕ} (hcuts : f.cuts = c :: cuts) (hroom : f.rest.length ≤ n) :
    (f.read n).1 = f.rest.take (c + 1) ∧ (f.read n).2.rest = f.rest.drop (c + 1) := by
  have hlimit : f.limit n = min n (c + 1) := by rw [Source.limit, hcuts]
  rw [Source.read, hlimit]
  rcases Nat.le_total n (c + 1) with hle | hle
  · rw [Nat.min_eq_left hle, take_of_length_le hroom, drop_of_length_le hroom,
      take_of_length_le (le_trans hroom hle), drop_of_length_le (le_trans hroom hle)]
    exact ⟨rfl, rfl⟩
  · rw [Nat.min_eq_right hle]
    exact ⟨rfl, rfl⟩

/-- The next piece has whole names, and so has the rest. -/
theorem wholeNames_read (hf : f.rest = nameFile names []) (hne : f.rest ≠ []) (h : WholeNames f.cuts f.rest)
    (hroom : f.rest.length ≤ n) :
    ∃ ns ns', names = ns ++ ns' ∧ (f.read n).1 = nameFile ns [] ∧ (f.read n).2.rest = nameFile ns' [] ∧
      WholeNames (f.read n).2.cuts (f.read n).2.rest := by
  cases hcuts : f.cuts with
  | nil =>
    have hlimit : f.limit n = n := by rw [Source.limit, hcuts]
    refine ⟨names, [], (append_nil _).symm, ?_, ?_, ?_⟩
    · rw [Source.read, hlimit, take_of_length_le hroom, hf]
    · rw [Source.read, hlimit, drop_of_length_le hroom]
      rfl
    · rw [Source.read, hlimit, drop_of_length_le hroom]
      exact wholeNames_nil _
  | cons c cuts =>
    obtain ⟨hpiece, hrest⟩ := read_room hcuts hroom
    rw [hcuts] at h
    obtain ⟨hlast, htail⟩ := h.resolve_left hne
    obtain ⟨ns, ns', hnames, hns, hns'⟩ :=
      nameFile_split (hf.symm.trans (take_append_drop (c + 1) _).symm) hlast
    refine ⟨ns, ns', hnames, hpiece.trans hns, hrest.trans hns', ?_⟩
    rw [hrest, Source.read, hcuts]
    exact htail

theorem readNameFile_whole (hf : f.rest = nameFile names []) (hcuts : WholeNames f.cuts f.rest)
    (hp : b.p = b.data.length) (hfits : b.data.length + f.rest.length ≤ pathMax) (hrounds : f.rest.length < rounds) :
    readNameFile newPath oldPath rounds f b = some (b.files ++ names.filterMap (matchName newPath oldPath)) := by
  induction rounds generalizing f b names with
  | zero => cases hrounds
  | succ rounds ih =>
    rw [readNameFile]
    have hroom : f.rest.length ≤ pathMax - b.data.length := by omega
    have hread := f.length_read (pathMax - b.data.length)
    by_cases hrest : f.rest = []
    · have hnames : names = [] := by
        rw [hrest] at hf
        have := congrArg readNames hf
        rw [readNames_nameFile] at this
        exact (Prod.mk.inj this).1.symm
      rw [if_pos (by rw [Source.read, hrest, take_nil]), hnames, filterMap_nil, append_nil]
    have hpos := length_pos_of_ne_nil hrest
    have hpiece : (f.read (pathMax - b.data.length)).1 ≠ [] :=
      fun hnil => hrest ((Source.read_eq_nil_iff (by omega)).mp hnil)
    obtain ⟨ns, ns', hnames, hns, hns', hcuts'⟩ := wholeNames_read hf hrest hcuts hroom
    have hdrop : (b.data ++ (f.read (pathMax - b.data.length)).1).drop b.p = nameFile ns [] := by
      rw [hp, drop_left, hns]
    have hlen : (f.read (pathMax - b.data.length)).1.length = size ns := by
      rw [hns, length_nameFile, length_nil, add_zero]
    have hpos' := length_pos_of_ne_nil hpiece
    rw [if_neg hpiece, scanNames_eq, hdrop, readNames_nameFile, scanned, if_pos rfl]
    dsimp only
    rw [ih hns' hcuts' ?_ ?_ ?_, hnames, filterMap_append, append_assoc]
    · dsimp only
      rw [length_append, hp, hlen]
    · dsimp only
      rw [length_append]
      omega
    · omega

/-! ### A file of other pieces -/

/-- What is found for all paths is not longer than the names. -/
theorem size_found_le (names : List CString) : size (names.filterMap (matchName [] (cLit "/"))) ≤ size names := by
  induction names with
  | nil => exact le_rfl
  | cons name names ih =>
    rw [filterMap_cons, size_cons]
    cases hfound : matchName [] (cLit "/") name with
    | none => exact le_trans ih (Nat.le_add_left _ _)
    | some path =>
      obtain ⟨⟨hlen, -⟩, hpath⟩ := ite_none_right_eq_some.mp hfound
      have hslash : (cLit "/").length = 1 := rfl
      rw [hslash] at hlen
      dsimp only
      rw [size_cons, ← some.inj hpath, nil_append, length_append, length_drop, hslash]
      omega

/-- Bytes are lost. -/
structure Lossy (total : ℕ) (b : NameBuf) (f : Source UInt8) : Prop where
  files : size b.files + f.rest.length < total
  data : size b.files + b.data.length + f.rest.length + 1 ≤ total + b.p

theorem readNameFile_lossy {total : ℕ} (h : Lossy total b f)
    (hr : readNameFile [] (cLit "/") rounds f b = some files) : size files < total := by
  induction rounds generalizing f b with
  | zero => cases hr
  | succ rounds ih =>
    rw [readNameFile] at hr
    have hread := f.length_read (pathMax - b.data.length)
    have hfiles := h.files
    have hdata := h.data
    split at hr
    · rw [← some.inj hr]
      omega
    · rw [scanNames_eq] at hr
      have hlen := congrArg List.length
        (nameFile_readNames ((b.data ++ (f.read (pathMax - b.data.length)).1).drop b.p))
      generalize readNames ((b.data ++ (f.read (pathMax - b.data.length)).1).drop b.p) = r at hr hlen
      have hfound := size_found_le r.1
      rw [length_nameFile, length_drop, length_append] at hlen
      rw [scanned] at hr
      by_cases hrest : r.2 = []
      · rw [if_pos hrest] at hr
        refine ih ⟨?_, ?_⟩ hr <;> dsimp only <;> rw [size_append]
        · omega
        · rw [length_append]
          omega
      · have hpos := length_pos_of_ne_nil hrest
        rw [if_neg hrest] at hr
        by_cases hzero : b.p + size r.1 = 0
        · rw [if_pos hzero] at hr
          rw [← some.inj hr]
          exact Nat.zero_lt_of_lt hfiles
        · rw [if_neg hzero] at hr
          refine ih ⟨?_, ?_⟩ hr <;> dsimp only <;> rw [size_append]
          · omega
          · rw [length_drop, length_append]
            omega

/-- A run that finds as many bytes as there are was one of whole pieces. -/
theorem wholeNames_of_readNameFile (total : ℕ) (hp : b.p = b.data.length) (hdata : b.data.length ≤ pathMax)
    (htotal : size b.files + f.rest.length ≤ total) (hr : readNameFile [] (cLit "/") rounds f b = some files)
    (hfiles : size files = total) : WholeNames f.cuts f.rest ∧ b.data.length + f.rest.length ≤ pathMax := by
  induction rounds generalizing f b with
  | zero => cases hr
  | succ rounds ih =>
    rw [readNameFile] at hr
    have hread := f.length_read (pathMax - b.data.length)
    split at hr
    · rw [← some.inj hr] at hfiles
      have hrest : f.rest = [] := eq_nil_of_length_eq_zero (by omega)
      rw [hrest]
      exact ⟨wholeNames_nil _, hdata⟩
    rename_i hpiece
    have hpos := length_pos_of_ne_nil hpiece
    have hlimit := f.length_read_le (pathMax - b.data.length)
    rw [scanNames_eq, hp, drop_left] at hr
    have happ := nameFile_readNames (f.read (pathMax - b.data.length)).1
    have hlen := congrArg List.length happ
    generalize readNames (f.read (pathMax - b.data.length)).1 = r at hr happ hlen
    have hfound := size_found_le r.1
    rw [length_nameFile] at hlen
    rw [scanned] at hr
    by_cases hrest : r.2 = []
    · rw [if_pos hrest] at hr
      have hnil : r.2.length = 0 := by rw [hrest]; rfl
      obtain ⟨hwhole, hfits⟩ := ih (by dsimp only; rw [length_append]; omega)
        (by dsimp only; rw [length_append]; omega) (by dsimp only; rw [size_append]; omega) hr
      dsimp only at hfits
      rw [length_append] at hfits
      refine ⟨?_, by omega⟩
      cases hcuts : f.cuts with
      | nil => trivial
      | cons c cuts =>
        obtain ⟨hfst, hsnd⟩ := read_room (n := pathMax - b.data.length) hcuts (by omega)
        refine .inr ⟨?_, ?_⟩
        · rw [← hfst, ← happ]
          exact (getLast?_nameFile (by rw [happ]; exact hpiece)).mpr hrest
        · rw [hsnd, Source.read, hcuts] at hwhole
          exact hwhole
    · have hpos' := length_pos_of_ne_nil hrest
      rw [if_neg hrest] at hr
      -- the name is too long, or its start is moved
      by_cases hzero : b.data.length + size r.1 = 0
      · rw [if_pos hzero] at hr
        rw [← some.inj hr] at hfiles
        have : size [] = 0 := rfl
        omega
      · rw [if_neg hzero] at hr
        refine absurd hfiles (ne_of_lt (readNameFile_lossy ⟨?_, ?_⟩ hr)) <;> dsimp only <;> rw [size_append]
        · omega
        · rw [length_drop, length_append]
          omega

/-! ### The names in a renamed directory -/

/-- A path below the root. -/
def Absolute (name : CString) : Prop := ∃ rest, rest ≠ [] ∧ name = cLit "/" ++ rest

theorem renamed_root (h : Absolute name) : renamed [] [] name = some name := by
  obtain ⟨rest, hrest, rfl⟩ := h
  exact renamed_eq_some_iff.mpr ⟨rest, hrest, rfl, rfl⟩

/-- The files in a renamed directory get their new names, whatever the old and the new name of the directory are: if
    every piece of the file ends with a NUL and the file fits into the buffer. Other files of paths go wrong. -/
theorem renamesAll_whole (names : List CString) (cuts : List ℕ) :
    (WholeNames cuts (nameFile names []) ∧ (nameFile names []).length ≤ pathMax →
      ∀ new old, RenamesAll names cuts new old) ∧
    ((∀ name ∈ names, Absolute name) → (∀ new old, RenamesAll names cuts new old) →
      WholeNames cuts (nameFile names []) ∧ (nameFile names []).length ≤ pathMax) := by
  constructor
  · rintro ⟨hwhole, hfits⟩ new old
    have hzero : 0 + (nameFile names []).length ≤ pathMax := by omega
    exact readNameFile_whole rfl hwhole rfl hzero (Nat.lt_succ_self _)
  · intro habs hall
    have hr := hall [] []
    have hnames : names.filterMap (renamed [] []) = names := by
      rw [List.filterMap_congr fun name hname => renamed_root (habs name hname), List.filterMap_some]
    rw [RenamesAll, hnames, renameDirOneFile, List.nil_append] at hr
    have hlen : (nameFile names []).length = size names := length_nameFile names []
    obtain ⟨hwhole, hfits⟩ := wholeNames_of_readNameFile (size names) rfl (Nat.zero_le _)
      (by rw [hlen]; exact Nat.le_of_eq (Nat.zero_add _)) hr rfl
    exact ⟨hwhole, Nat.le_trans (Nat.le_add_left _ _) hfits⟩

/-- A piece ends in the second name. -/
theorem renamesAll_straddle :
    ¬ RenamesAll [cLit "/a/x", cLit "/a/yz"] [6, 3] (cLit "/b") (cLit "/a") := by
  decide +kernel

end Anoubis.Pe.Pg

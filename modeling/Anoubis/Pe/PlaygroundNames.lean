import Anoubis.Pe.Playground
import Anoubis.Lib.Run

/-! Names in a name file (`pe_playground_file_add`).

    A name file holds paths, each with its NUL; a write that went short leaves a last one without. The
    function reads the file piece by piece and looks for the path on the way. Between two bytes it
    knows how far the current name agrees with the path, or that it does not.

        a / b 0 a / b c 0 …       path = a/bc
        0 1 2 3 0 1 2 3 4 found   at NUL: back to 0, from a mismatch on: skip to the next NUL

    Only a path that is not found is appended. What a path that is found returns is another matter: the
    result was set to -1 at the start. -/

namespace Anoubis.Pe.Pg

open Option

open Anoubis.Lib List

namespace Slot

/-- The loop around `read`: the offset into the path goes from one piece of the file to the next. -/
def matchBufs (path : CString) : Option ℕ → List (List UInt8) → Option (Option ℕ)
  | pathoff, [] => some pathoff
  | pathoff, buf :: bufs => (matchBytes path pathoff buf).bind fun pathoff => matchBufs path pathoff bufs

/-- `pe_playground_file_add` on a file that `read` returns in these pieces. -/
def fileAddBufs (path : CString) (w : Writes) (bufs : List (List UInt8)) : ℤ × List UInt8 :=
  let newfile : ℤ := if bufs = [] then 1 else 0
  let old := bufs.flatten
  match matchBufs path (some 0) bufs with
  | none => (-1, old)
  | some pathoff =>
    if pathoff ≠ some 0 ∧ !w.nul then (-1, old)
    else
      let old := if pathoff ≠ some 0 then old ++ [0] else old
      let bytes := cBytes path
      (if bytes.length ≤ w.path ∧ w.close then newfile else -1, old ++ bytes.take w.path)

/-- `read` cuts the file into these pieces; the buffer has 512 bytes. -/
def CutOf (old : List UInt8) (bufs : List (List UInt8)) : Prop :=
  bufs.flatten = old ∧ ∀ buf ∈ bufs, buf ≠ [] ∧ buf.length ≤ 512

instance (old : List UInt8) (bufs : List (List UInt8)) : Decidable (CutOf old bufs) :=
  inferInstanceAs (Decidable (_ ∧ _))

/-- No write fails. -/
def Writes.Work (w : Writes) (path : CString) : Prop :=
  w.nul = true ∧ (cBytes path).length ≤ w.path ∧ w.close = true

instance (w : Writes) (path : CString) : Decidable (w.Work path) := inferInstanceAs (Decidable (_ ∧ _ ∧ _))

/-! ### The names of a file -/

/-- The names with their NUL, and what stands behind the last NUL. -/
def readNames : List UInt8 → List CString × CString
  | [] => ([], [])
  | b :: bs =>
    if h : b = 0 then ([] :: (readNames bs).1, (readNames bs).2)
    else match (readNames bs).1 with
      | [] => ([], ⟨b, h⟩ :: (readNames bs).2)
      | name :: names => ((⟨b, h⟩ :: name) :: names, (readNames bs).2)

/-- The file with these names. -/
def nameFile (names : List CString) (rest : CString) : List UInt8 :=
  names.flatMap cBytes ++ rest.map Subtype.val

theorem nameFile_cons (name : CString) (names : List CString) (rest : CString) :
    nameFile (name :: names) rest = cBytes name ++ nameFile names rest := by
  rw [nameFile, flatMap_cons, append_assoc, nameFile]

theorem readNames_name (name : CString) (bs : List UInt8) :
    readNames (cBytes name ++ bs) = (name :: (readNames bs).1, (readNames bs).2) := by
  induction name with
  | nil => rfl
  | cons c name ih =>
    have hcons : cBytes (c :: name) ++ bs = c.1 :: (cBytes name ++ bs) := rfl
    rw [hcons, readNames, dif_neg c.2, ih]

theorem readNames_rest (rest : CString) : readNames (rest.map Subtype.val) = ([], rest) := by
  induction rest with
  | nil => rfl
  | cons c rest ih => rw [map_cons, readNames, dif_neg c.2, ih]

theorem readNames_nameFile (names : List CString) (rest : CString) :
    readNames (nameFile names rest) = (names, rest) := by
  induction names with
  | nil => exact readNames_rest rest
  | cons name names ih => rw [nameFile_cons, readNames_name, ih]

/-- Every file is made of its names. -/
theorem nameFile_readNames (bs : List UInt8) : nameFile (readNames bs).1 (readNames bs).2 = bs := by
  induction bs with
  | nil => rfl
  | cons b bs ih =>
    rw [readNames]
    by_cases hb : b = 0
    · rw [dif_pos hb, nameFile_cons, ih, hb]
      rfl
    · rw [dif_neg hb]
      cases hn : (readNames bs).1 with
      | nil =>
        rw [hn] at ih
        exact congrArg (b :: ·) ih
      | cons name names =>
        rw [hn, nameFile_cons] at ih
        dsimp only
        rw [nameFile_cons]
        exact congrArg (b :: ·) ih

/-- The file with its last name closed. -/
def completed (old : List UInt8) : List UInt8 := if (readNames old).2 = [] then old else old ++ [0]

/-- What the call is for: a known path changes nothing and returns 0, a new one is appended. -/
def AddsName (path : CString) (old : List UInt8) (r : ℤ × List UInt8) : Prop :=
  if path ∈ (readNames old).1 then r = (0, old)
  else r = (if old = [] then 1 else 0, completed old ++ cBytes path)

instance (path : CString) (old : List UInt8) (r : ℤ × List UInt8) : Decidable (AddsName path old r) :=
  inferInstanceAs (Decidable (ite _ _ _))

/-! ### The loop -/

variable {path : CString}

theorem matchBytes_append (pathoff : Option ℕ) (bs cs : List UInt8) : matchBytes path pathoff (bs ++ cs) =
    (matchBytes path pathoff bs).bind fun pathoff => matchBytes path pathoff cs := by
  induction bs generalizing pathoff with
  | nil => rfl
  | cons b bs ih =>
    rw [cons_append, matchBytes, matchBytes, bind_assoc]
    exact bind_congr fun pathoff _ => ih pathoff

/-- It does not matter how the file is cut. -/
theorem matchBufs_eq (pathoff : Option ℕ) (bufs : List (List UInt8)) :
    matchBufs path pathoff bufs = matchBytes path pathoff bufs.flatten := by
  induction bufs generalizing pathoff with
  | nil => rfl
  | cons buf bufs ih =>
    rw [matchBufs, flatten_cons, matchBytes_append]
    exact bind_congr fun pathoff _ => ih pathoff

/-- The offset behind a part of a name. -/
def offset (path t : CString) : Option ℕ := if t <+: path then some t.length else none

/-- The byte of the path that is compared next. -/
theorem next_byte {t u : CString} (h : path = t ++ u) :
    ((cBytes path)[t.length]?).getD 0 = (u.head?.map Subtype.val).getD 0 := by
  subst h
  rw [cBytes, map_append, append_assoc, getElem?_append_right (by simp)]
  cases u <;> simp

theorem matchByte_char (t : CString) (c : CChar) :
    matchByte path (offset path t) c = some (offset path (t ++ [c])) := by
  by_cases ht : t <+: path
  · obtain ⟨u, hu⟩ := ht
    have ht : t <+: path := ⟨u, hu⟩
    rw [offset, if_pos ht, matchByte, next_byte hu.symm]
    cases u with
    | nil =>
      have hnot : ¬ t ++ [c] <+: path := by
        intro h
        have hlen := h.length_le
        simp only [← hu, append_nil, length_append, length_singleton] at hlen
        omega
      rw [if_neg (by simpa using c.2), if_neg c.2, offset, if_neg hnot]
    | cons d u =>
      by_cases hcd : c = d
      · subst hcd
        have hpre : t ++ [c] <+: path := ⟨u, by rw [← hu, append_assoc]; rfl⟩
        change (if c.1 = c.1 then if c.1 = 0 then _ else _ else _) = _
        rw [if_pos rfl, if_neg c.2, offset, if_pos hpre, length_append, length_singleton]
      · have hne : ¬ c.1 = d.1 := fun h => hcd (Subtype.ext h)
        have hnot : ¬ t ++ [c] <+: path := by
          rintro ⟨v, hv⟩
          rw [← hu, append_assoc, append_cancel_left_eq] at hv
          exact hcd (List.cons.inj hv).1
        rw [if_neg (by simpa using hne), if_neg c.2, offset, if_neg hnot]
  · have hnot : ¬ t ++ [c] <+: path := fun h => ht ((prefix_append t [c]).trans h)
    rw [offset, if_neg ht, matchByte, if_neg c.2, offset, if_neg hnot]

theorem matchByte_nul (t : CString) :
    matchByte path (offset path t) 0 = if t = path then none else some (some 0) := by
  by_cases ht : t <+: path
  · obtain ⟨u, hu⟩ := ht
    have ht : t <+: path := ⟨u, hu⟩
    rw [offset, if_pos ht, matchByte, next_byte hu.symm]
    cases u with
    | nil =>
      rw [append_nil] at hu
      rw [if_pos hu]
      rfl
    | cons d u =>
      have hne : t ≠ path := by
        intro h
        rw [← h] at hu
        simp at hu
      rw [if_neg (by simpa using Ne.symm d.2), if_neg hne]
      rfl
  · have hne : t ≠ path := fun h => ht (h ▸ prefix_rfl)
    rw [offset, if_neg ht, matchByte, if_neg hne]
    rfl

/-- A part of a name, from one offset to the next. -/
theorem matchBytes_part (t u : CString) :
    matchBytes path (offset path t) (u.map Subtype.val) = some (offset path (t ++ u)) := by
  induction u generalizing t with
  | nil => rw [append_nil]; rfl
  | cons c u ih =>
    rw [map_cons, matchBytes, matchByte_char, bind_some, ih, append_assoc]
    rfl

theorem offset_nil (path : CString) : offset path [] = some 0 := if_pos nil_prefix

theorem matchBytes_name (name : CString) (bs : List UInt8) :
    matchBytes path (some 0) (cBytes name ++ bs) =
      if name = path then none else matchBytes path (some 0) bs := by
  have hpart : matchBytes path (offset path []) (name.map Subtype.val) = _ := matchBytes_part [] name
  rw [offset_nil, nil_append] at hpart
  rw [cBytes, append_assoc, matchBytes_append, hpart, bind_some, singleton_append, matchBytes,
    matchByte_nul]
  by_cases hn : name = path
  · rw [if_pos hn, if_pos hn]
    rfl
  · rw [if_neg hn, if_neg hn]
    rfl

/-- The loop finds the path if and only if it is one of the names. -/
theorem matchBytes_nameFile (names : List CString) (rest : CString) :
    matchBytes path (some 0) (nameFile names rest) =
      if path ∈ names then none else some (offset path rest) := by
  induction names with
  | nil =>
    have hpart : matchBytes path (offset path []) (rest.map Subtype.val) = _ := matchBytes_part [] rest
    rw [offset_nil] at hpart
    rw [if_neg not_mem_nil]
    exact hpart
  | cons name names ih =>
    rw [nameFile_cons, matchBytes_name, ih]
    by_cases hn : name = path
    · rw [if_pos hn, if_pos (mem_cons.mpr (.inl hn.symm))]
    · have hmem : path ∈ name :: names ↔ path ∈ names :=
        ⟨fun h => (mem_cons.mp h).resolve_left (Ne.symm hn), mem_cons_of_mem name⟩
      rw [if_neg hn, if_congr hmem rfl rfl]

theorem offset_eq_start {rest : CString} : offset path rest = some 0 ↔ rest = [] := by
  rw [offset]
  constructor
  · intro h
    by_cases hp : rest <+: path
    · rw [if_pos hp] at h
      exact eq_nil_of_length_eq_zero (some.inj h)
    · rw [if_neg hp] at h
      cases h
  · rintro rfl
    exact offset_nil path

/-! ### One call -/

variable {old : List UInt8} {bufs : List (List UInt8)} {w : Writes}

theorem flatten_eq_nil_iff (h : CutOf old bufs) : old = [] ↔ bufs = [] := by
  rw [← h.1]
  constructor
  · intro hnil
    cases bufs with
    | nil => rfl
    | cons buf bufs =>
      exact absurd (append_eq_nil_iff.mp hnil).1 (h.2 buf mem_cons_self).1
  · rintro rfl
    rfl

/-- The call in one step. -/
theorem fileAddBufs_eq (hcut : CutOf old bufs) (hw : w.Work path) : fileAddBufs path w bufs =
    if path ∈ (readNames old).1 then (-1, old)
    else (if old = [] then 1 else 0, completed old ++ cBytes path) := by
  obtain ⟨hnul, hlen, hclose⟩ := hw
  have hmatch : matchBufs path (some 0) bufs =
      if path ∈ (readNames old).1 then none else some (offset path (readNames old).2) := by
    rw [matchBufs_eq, hcut.1, ← matchBytes_nameFile, nameFile_readNames]
  rw [fileAddBufs, hmatch, hcut.1]
  dsimp only
  by_cases hmem : path ∈ (readNames old).1
  · rw [if_pos hmem, if_pos hmem]
  · rw [if_neg hmem, if_neg hmem, completed, if_congr (flatten_eq_nil_iff hcut) rfl rfl]
    dsimp only
    rw [if_neg (by simp [hnul]), if_pos ⟨hlen, hclose⟩, take_of_length_le hlen]
    by_cases hrest : (readNames old).2 = []
    · rw [if_neg (not_not.mpr (offset_eq_start.mpr hrest)), if_pos hrest]
    · rw [if_pos (fun h => hrest (offset_eq_start.mp h)), if_neg hrest]

/-- The call does what it is for if and only if the path is not yet a name of the file. -/
theorem addsName_iff (hcut : CutOf old bufs) (hw : w.Work path) :
    AddsName path old (fileAddBufs path w bufs) ↔ path ∉ (readNames old).1 := by
  rw [AddsName, fileAddBufs_eq hcut hw]
  by_cases hmem : path ∈ (readNames old).1
  · rw [if_pos hmem, if_pos hmem]
    refine iff_of_false (fun h => ?_) (not_not.mpr hmem)
    exact absurd (Prod.mk.inj h).1 (by decide)
  · rw [if_neg hmem, if_neg hmem]
    exact iff_of_true rfl hmem

theorem readNames_completed (old : List UInt8) (h : (readNames old).2 = []) (path : CString) :
    readNames (completed old ++ cBytes path) = ((readNames old).1 ++ [path], []) := by
  have hfile : completed old ++ cBytes path = nameFile ((readNames old).1 ++ [path]) [] := by
    have hold := nameFile_readNames old
    rw [h] at hold
    rw [completed, if_pos h]
    conv => lhs; rw [← hold]
    simp [nameFile]
  rw [hfile, readNames_nameFile]

/-! ### A sequence of calls -/

/-- A call on the name file of an inode. -/
structure AddCall where
  path : CString
  bufs : List (List UInt8)
  writes : Writes

/-- The call on what is in the file. -/
def addStep (old : List UInt8) (c : AddCall) : Option (List UInt8) :=
  if CutOf old c.bufs ∧ c.writes.Work c.path then some (fileAddBufs c.path c.writes c.bufs).2 else none

/-- The file consists of whole names, and they are the paths of the calls. -/
def Named (bs : List UInt8) (calls : List AddCall) : Prop :=
  (readNames bs).2 = [] ∧ ∀ name, name ∈ (readNames bs).1 ↔ name ∈ calls.map AddCall.path

theorem named_step {bs bs' : List UInt8} {calls : List AddCall} {c : AddCall} (h : Named bs calls)
    (hs : addStep bs c = some bs') : Named bs' (calls ++ [c]) := by
  obtain ⟨hrest, hmem⟩ := h
  rw [addStep] at hs
  obtain ⟨⟨hcut, hw⟩, hs⟩ := ite_none_right_eq_some.mp hs
  rw [fileAddBufs_eq hcut hw] at hs
  have hlast : ∀ name, name ∈ (calls ++ [c]).map AddCall.path ↔
      name ∈ (readNames bs).1 ∨ name = c.path := by
    intro name
    rw [map_append, mem_append, ← hmem]
    simp
  by_cases hin : c.path ∈ (readNames bs).1
  · rw [if_pos hin] at hs
    cases hs
    refine ⟨hrest, fun name => ?_⟩
    rw [hlast]
    refine (or_iff_left_of_imp ?_).symm
    rintro rfl
    exact hin
  · rw [if_neg hin] at hs
    cases hs
    rw [Named, readNames_completed bs hrest]
    refine ⟨rfl, fun name => ?_⟩
    rw [hlast, mem_append, mem_singleton]

/-- Each call does what it is for if and only if its path is not one of the NUL-terminated names of the
    file, however the file is cut; and behind any sequence of calls on a new file the names of the
    file are the paths that were added. -/
theorem names_added (path : CString) (old : List UInt8) (bufs : List (List UInt8)) (w : Writes)
    (calls : List AddCall) (bs : List UInt8) :
    (CutOf old bufs → w.Work path →
      (AddsName path old (fileAddBufs path w bufs) ↔ path ∉ (readNames old).1)) ∧
    (runs addStep [] calls = some bs → ∀ name, name ∈ (readNames bs).1 ↔ name ∈ calls.map AddCall.path) := by
  refine ⟨addsName_iff, fun hr => ?_⟩
  have hstart : Named [] [] := ⟨rfl, fun name => Iff.rfl⟩
  exact (runs_remember (fun s h c s' hI hs => named_step hI hs) hstart hr).2

/-- The path "a". -/
def pathA : CString := [⟨97, by decide⟩]

/-- A new file gets its first name. -/
theorem names_added_first :
    AddsName pathA [] (fileAddBufs pathA ⟨true, 2, true⟩ []) ∧
      ∀ name, name ∈ (readNames [97, 0]).1 ↔ name ∈ [pathA] :=
  have hone := names_added pathA [] [] ⟨true, 2, true⟩ [⟨pathA, [], ⟨true, 2, true⟩⟩] [97, 0]
  ⟨(hone.1 (by decide) (by decide)).mpr (by decide), hone.2 (by decide)⟩

/-- A path that is there already is reported as a failure. -/
theorem known_path_fails : ¬ ∀ (path : CString) (old : List UInt8) (bufs : List (List UInt8)) (w : Writes),
    CutOf old bufs → w.Work path → AddsName path old (fileAddBufs path w bufs) := by
  intro h
  have hadd := h pathA [97, 0] [[97, 0]] ⟨true, 2, true⟩ (by decide) (by decide)
  exact absurd hadd (by decide)

end Slot

end Anoubis.Pe.Pg

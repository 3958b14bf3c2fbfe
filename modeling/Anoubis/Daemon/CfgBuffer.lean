import Anoubis.Daemon.CfgText

/-! The line buffer of `cfg_parse_file`.

    Each line is taken apart in place: white space and the first `=` are overwritten with NULs, and key and value are
    pointers into the buffer.

        buf     ␣ k e y ␣ = ␣ v a l u e \ ␤ 0 …
                  k e y 0 0 ␣ v a l u e 0 0 0 …
                  ▲ key       ▲ line

    The functions are those of `Cfg`, on positions in the buffer. They are `none` where they read or write outside of
    it, which does not happen: before an empty value stands the NUL that was written over the `=`. -/

namespace Anoubis.Cfg

open Option

open Anoubis.Lib List

/-! ### Positions -/

/-- `buf[i]`. -/
def load (buf : List UInt8) (i : ℤ) : Option UInt8 := if i < 0 then none else buf[i.toNat]?

/-- `buf[i] = b`. -/
def store (buf : List UInt8) (i : ℤ) (b : UInt8) : Option (List UInt8) :=
  if i < 0 ∨ buf.length ≤ i.toNat then none else some (buf.set i.toNat b)

/-- `strlen`, from here to the end of the buffer. -/
def strlen : List UInt8 → Option ℕ
  | [] => none
  | b :: bs => if b = 0 then some 0 else (strlen bs).map (· + 1)

/-- `strchr`, from here to the end of the buffer. -/
def strchr (c : UInt8) : List UInt8 → Option (Option ℕ)
  | [] => none
  | b :: bs => if b = c then some (some 0) else if b = 0 then some none else (strchr c bs).map fun n => n.map (· + 1)

def isspaceByte (b : UInt8) : Bool := decide (b = 32 ∨ 9 ≤ b ∧ b ≤ 13)

/-- The first loop of `strip_whitespaces`, with `i` going down. -/
def stripTail (buf : List UInt8) (string : ℕ) : ℕ → Option (List UInt8)
  | 0 => some buf
  | i + 1 =>
    (load buf (string + (i + 1) : ℕ)).bind fun b =>
      if isspaceByte b then (store buf (string + (i + 1) : ℕ) 0).bind fun buf => stripTail buf string i else some buf

/-- The second loop, from here to the end of the buffer. -/
def skipSpace : List UInt8 → Option ℕ
  | [] => none
  | b :: bs => if b ≠ 0 ∧ isspaceByte b then (skipSpace bs).map (· + 1) else some 0

/-- `strip_whitespaces`: the buffer, and where the string starts. -/
def stripAt (buf : List UInt8) (string : ℕ) : Option (List UInt8 × ℕ) :=
  (load buf string).bind fun b =>
    if b = 0 then some (buf, string)
    else
      (strlen (buf.drop string)).bind fun n =>
        (stripTail buf string (n - 1)).bind fun buf =>
          (skipSpace (buf.drop string)).map fun k => (buf, string + k)

/-! ### Lines -/

/-- The string at a position, where its NUL is in the buffer. -/
def stringAt (buf : List UInt8) (p : ℕ) : Option CString := (strlen (buf.drop p)).map fun _ => cString (buf.drop p)

/-- The end of the loop body: is the value continued? -/
def Parse.addvalueAt (p : Parse) (buf : List UInt8) (line : ℕ) : Option (Parse × List UInt8) :=
  (strlen (buf.drop line)).bind fun n =>
    (load buf (line + n - 1)).bind fun b =>
      if b = 92 then
        (store buf (line + n - 1) 0).bind fun buf => (stringAt buf line).map fun value =>
          ({ p with value := p.value ++ value, keyExpected := false }, buf)
      else (stringAt buf line).map fun value => (Parse.process { p with value := p.value ++ value }, buf)

/-- A line that begins with a key. -/
def Parse.keyLineAt (p : Parse) (buf : List UInt8) (line : ℕ) : Option (Parse × List UInt8) :=
  (strchr 61 (buf.drop line)).bind fun pos =>
    match pos with
    | none => some (p.error, buf)
    | some pos =>
      (store buf (line + pos : ℕ) 0).bind fun buf =>
        (stripAt buf line).bind fun (buf, key) =>
          (stripAt buf (line + pos + 1)).bind fun (buf, line) =>
            (stringAt buf key).bind fun key =>
              match nameToValue keywords key with
              | none => some (p.error, buf)
              | some k => Parse.addvalueAt { p with key := some k } buf line

/-- The body of the loop, on the buffer. -/
def Parse.lineAt (p : Parse) (buf : List UInt8) : Option (Parse × List UInt8) :=
  (strlen buf).bind fun n =>
    if n ≥ bufSize - 1 then some (p.error, buf)
    else
      (stripAt buf 0).bind fun (buf, line) =>
        (load buf line).bind fun b =>
          if b = 0 ∨ b = 35 then some (p, buf)
          else if p.keyExpected then p.keyLineAt buf line
          else p.addvalueAt buf line

/-- What `fgets` leaves in the buffer. -/
def fill (buf line : List UInt8) : List UInt8 := line ++ 0 :: buf.drop (line.length + 1)

/-- `cfg_parse_file`, with what is in the buffer at its start. -/
def cfgParseAt (buf text : List UInt8) (c : Config) : Option (Bool × Config) :=
  ((fgetsAll text []).foldlM (fun (s : Parse × List UInt8) line => s.1.lineAt (fill s.2 line)) (.fresh c, buf)).map
    fun s => s.1.finish

/-! ### Strings in the buffer -/

section Strings

variable {pre rest buf : List UInt8} {s : CString} {c : CChar}

theorem cBytes_cons (c : CChar) (s : CString) : cBytes (c :: s) = c.1 :: cBytes s := rfl

theorem strlen_cBytes (s : CString) (rest : List UInt8) : strlen (cBytes s ++ rest) = some s.length := by
  induction s with
  | nil => rfl
  | cons c s ih => rw [cBytes_cons, cons_append, strlen, if_neg c.2, ih]; rfl

theorem stringAt_cBytes (pre : List UInt8) (s : CString) (rest : List UInt8) :
    stringAt (pre ++ (cBytes s ++ rest)) pre.length = some s := by
  rw [stringAt, drop_left, strlen_cBytes, map_some, cString_cBytes]

theorem load_append (pre : List UInt8) (b : UInt8) (rest : List UInt8) : load (pre ++ b :: rest) pre.length = some b := by
  rw [load, if_neg (by omega), Int.toNat_natCast, getElem?_append_right le_rfl, Nat.sub_self]
  rfl

theorem store_append (pre : List UInt8) (b b' : UInt8) (rest : List UInt8) :
    store (pre ++ b :: rest) pre.length b' = some (pre ++ b' :: rest) := by
  rw [store, Int.toNat_natCast, if_neg, set_append_right _ _ le_rfl, Nat.sub_self]
  · rfl
  · rw [length_append, length_cons]
    omega

theorem isspace_eq (c : CChar) : isspaceByte c.1 = isspace c := rfl

theorem rtrim_concat_space (w : CString) (hc : isspace c = true) : rtrim (w ++ [c]) = rtrim w := by
  rw [rtrim, reverse_append, reverse_singleton, singleton_append, dropWhile_cons_of_pos hc, rtrim]

theorem length_rtrim_le (s : CString) : (rtrim s).length ≤ s.length := by
  rw [rtrim, length_reverse]
  exact le_trans (dropWhile_sublist _).length_le (le_of_eq length_reverse)

/-- White space at the end is overwritten, but for the first character of the string. -/
theorem stripTail_eq (pre : List UInt8) (c : CChar) (s : CString) (rest : List UInt8) :
    stripTail (pre ++ (c.1 :: (s.map Subtype.val ++ 0 :: rest))) pre.length s.length =
      some (pre ++ (cBytes (c :: rtrim s) ++ (List.replicate (s.length - (rtrim s).length) 0 ++ rest))) := by
  induction s using List.reverseRecOn generalizing rest with
  | nil => rfl
  | append_singleton w x ih =>
    -- the last character stands behind the others
    have hbuf : ∀ b : UInt8, ∀ rest, pre ++ (c.1 :: (w.map Subtype.val ++ b :: rest)) =
        (pre ++ c.1 :: w.map Subtype.val) ++ b :: rest := by simp
    have hpos : pre.length + (w.length + 1) = (pre ++ c.1 :: w.map Subtype.val).length := by simp
    have hend : (w ++ [x]).map Subtype.val ++ 0 :: rest = w.map Subtype.val ++ x.1 :: (0 :: rest) := by simp
    rw [length_append, length_singleton, stripTail, hend, hbuf, hpos, load_append, bind_some, isspace_eq]
    cases hx : isspace x with
    | true =>
      have hle := length_rtrim_le w
      rw [if_pos rfl, store_append, bind_some, ← hbuf, ih, rtrim_concat_space w hx, Nat.succ_sub hle,
        replicate_succ']
      simp
    | false =>
      have htrim : rtrim (w ++ [x]) = w ++ [x] := rtrim_trimmed ⟨x, getLast?_concat, hx⟩
      rw [if_neg Bool.false_ne_true, htrim, length_append, length_singleton, Nat.sub_self]
      simp [cBytes]

theorem skipSpace_eq (s : CString) (rest : List UInt8) :
    skipSpace (cBytes s ++ rest) = some (s.takeWhile isspace).length := by
  induction s with
  | nil => rfl
  | cons c s ih =>
    rw [cBytes_cons, cons_append, skipSpace, isspace_eq]
    cases hc : isspace c with
    | true => rw [if_pos ⟨c.2, rfl⟩, ih, takeWhile_cons_of_pos hc]; rfl
    | false => rw [if_neg (by simp), takeWhile_cons_of_neg (by simp [hc])]; rfl

theorem cBytes_takeWhile (s : CString) :
    cBytes s = (s.takeWhile isspace).map Subtype.val ++ cBytes (s.dropWhile isspace) := by
  rw [cBytes, cBytes, ← append_assoc, ← map_append, takeWhile_append_dropWhile]

/-- `strip_whitespaces` leaves the trimmed string, and what is behind the old one. -/
theorem stripAt_eq (pre : List UInt8) (s : CString) (rest : List UInt8) :
    ∃ lead k, lead.length + (trim s).length + k = s.length ∧ stripAt (pre ++ (cBytes s ++ rest)) pre.length =
        some (pre ++ (lead ++ (cBytes (trim s) ++ (List.replicate k 0 ++ rest))), pre.length + lead.length) := by
  cases s with
  | nil =>
    refine ⟨[], 0, rfl, ?_⟩
    have hbuf : pre ++ (cBytes [] ++ rest) = pre ++ 0 :: rest := rfl
    rw [stripAt, hbuf, load_append, bind_some, if_pos rfl]
    rfl
  | cons c s =>
    have hstrip : trim (c :: s) = (c :: rtrim s).dropWhile isspace := (stripWhitespaces_eq (c :: s)).symm
    have hlen := congrArg List.length (takeWhile_append_dropWhile (p := isspace) (l := c :: rtrim s))
    have hle := length_rtrim_le s
    refine ⟨((c :: rtrim s).takeWhile isspace).map Subtype.val, s.length - (rtrim s).length, ?_, ?_⟩
    · rw [length_append, length_cons] at hlen
      rw [hstrip, length_map, length_cons]
      omega
    · have hbuf : pre ++ (cBytes (c :: s) ++ rest) = pre ++ (c.1 :: (s.map Subtype.val ++ 0 :: rest)) := by
        simp [cBytes]
      have hload : load (pre ++ (cBytes (c :: s) ++ rest)) pre.length = some c.1 := by
        rw [hbuf]
        exact load_append pre c.1 _
      rw [stripAt, hload, bind_some, if_neg c.2, drop_left, strlen_cBytes, bind_some, hbuf,
        length_cons, Nat.add_sub_cancel, stripTail_eq, bind_some, drop_left, skipSpace_eq, hstrip,
        cBytes_takeWhile (c :: rtrim s), map_some, length_map, append_assoc]

end Strings

/-! ### Lines in the buffer -/

section Lines

variable {pre rest buf : List UInt8} {s key value : CString}

/-- The last character of a value, or what stands before an empty one, is read. -/
theorem addvalueAt_eq (p : Parse) (pre : List UInt8) (value : CString) (rest : List UInt8)
    (hpre : value = [] → ∃ b, b ≠ 92 ∧ pre.getLast? = some b) :
    ∃ buf', p.addvalueAt (pre ++ (cBytes value ++ rest)) pre.length = some (p.addvalue value, buf') ∧
      buf'.length = (pre ++ (cBytes value ++ rest)).length := by
  have hstring := stringAt_cBytes pre value rest
  rw [Parse.addvalueAt, drop_left, strlen_cBytes, bind_some]
  rcases eq_nil_or_concat value with rfl | ⟨w, x, rfl⟩
  · obtain ⟨b, hb, hlast⟩ := hpre rfl
    obtain ⟨pre', rfl⟩ := getLast?_eq_some_iff.mp hlast
    have hpos : (((pre' ++ [b]).length : ℕ) + (0 : ℕ) - 1 : ℤ) = (pre'.length : ℤ) := by simp
    have hload : load (pre' ++ [b] ++ (cBytes [] ++ rest)) pre'.length = some b := by
      rw [append_assoc]
      exact load_append pre' b _
    rw [length_nil, hpos, hload, bind_some, if_neg hb, hstring]
    exact ⟨_, by rw [map_some, ← addvalue_last rfl], rfl⟩
  · rw [concat_eq_append] at hstring ⊢
    have hpos : ((pre.length : ℕ) + ((w ++ [x]).length : ℕ) - 1 : ℤ) = ((pre ++ w.map Subtype.val).length : ℕ) := by
      simp
      omega
    have hbuf : pre ++ (cBytes (w ++ [x]) ++ rest) = (pre ++ w.map Subtype.val) ++ x.1 :: (0 :: rest) := by
      simp [cBytes]
    have hload : load (pre ++ (cBytes (w ++ [x]) ++ rest)) (pre ++ w.map Subtype.val).length = some x.1 := by
      rw [hbuf]
      exact load_append _ _ _
    rw [hpos, hload, bind_some]
    by_cases hx : x.1 = 92
    · have hcut : (pre ++ w.map Subtype.val) ++ 0 :: (0 :: rest) = pre ++ (cBytes w ++ 0 :: rest) := by
        simp [cBytes]
      rw [if_pos hx, hbuf, store_append, bind_some, hcut, stringAt_cBytes, map_some, addvalue_continued p w hx]
      exact ⟨_, rfl, by simp [cBytes]⟩
    · have hlast : isContinued (w ++ [x]) = false := by
        rw [isContinued, getLast?_concat, decide_eq_false_iff_not]
        exact fun h => hx (some.inj h)
      rw [if_neg hx, hstring, map_some, addvalue_last hlast]
      exact ⟨_, rfl, rfl⟩

theorem strchr_none (h : (strsep isEquals s).2 = none) (rest : List UInt8) :
    strchr 61 (cBytes s ++ rest) = some none := by
  induction s with
  | nil => rfl
  | cons c s ih =>
    rw [strsep] at h
    cases hc : isEquals c with
    | true =>
      rw [hc] at h
      cases h
    | false =>
      rw [hc, if_neg Bool.false_ne_true] at h
      rw [cBytes_cons, cons_append, strchr, if_neg (by simpa [isEquals] using hc), if_neg c.2, ih h]
      rfl

theorem strchr_some (h : strsep isEquals s = (key, some value)) (rest : List UInt8) :
    strchr 61 (cBytes s ++ rest) = some (some key.length) := by
  induction s generalizing key with
  | nil => cases h
  | cons c s ih =>
    rw [strsep] at h
    rw [cBytes_cons, cons_append, strchr]
    cases hc : isEquals c with
    | true =>
      rw [hc, if_pos rfl] at h
      cases h
      rw [if_pos (by simpa [isEquals] using hc)]
      rfl
    | false =>
      rw [hc, if_neg Bool.false_ne_true] at h
      obtain ⟨rfl, hv⟩ := Prod.mk.inj h
      rw [if_neg (by simpa [isEquals] using hc), if_neg c.2,
        ih (Prod.ext rfl hv : strsep isEquals s = ((strsep isEquals s).1, some value))]
      rfl

/-- Key and value of a line that was trimmed. -/
theorem keyLineAt_eq (p : Parse) (pre : List UInt8) (line : CString) (rest : List UInt8) (htrim : Trimmed line) :
    ∃ buf', p.keyLineAt (pre ++ (cBytes line ++ rest)) pre.length = some (p.keyLine line, buf') ∧
      buf'.length = (pre ++ (cBytes line ++ rest)).length := by
  rw [Parse.keyLineAt, drop_left, keyLine_eq, keyAndValue]
  cases hs : strsep isEquals line with
  | mk key value =>
    cases value with
    | none =>
      rw [strchr_none (by rw [hs])]
      exact ⟨_, rfl, rfl⟩
    | some value =>
      rw [strchr_some hs]
      dsimp only [bind_some]
      obtain ⟨d, -, rfl⟩ := strsep_some hs
      -- the NUL over the `=` makes two strings of the line
      have hline : pre ++ (cBytes (key ++ d :: value) ++ rest) =
          (pre ++ key.map Subtype.val) ++ d.1 :: (cBytes value ++ rest) := by simp [cBytes]
      have hcut : (pre ++ key.map Subtype.val) ++ 0 :: (cBytes value ++ rest) =
          pre ++ (cBytes key ++ (cBytes value ++ rest)) := by simp [cBytes]
      have hpos : pre.length + key.length = (pre ++ key.map Subtype.val).length := by simp
      rw [hline, hpos, store_append, bind_some, hcut]
      -- the key
      obtain ⟨lead, k, hlen, hkey⟩ := stripAt_eq pre key (cBytes value ++ rest)
      rw [hkey, bind_some]
      dsimp only
      have hmid : pre ++ (lead ++ (cBytes (trim key) ++ (List.replicate k 0 ++ (cBytes value ++ rest)))) =
          (pre ++ lead ++ cBytes (trim key) ++ List.replicate k 0) ++ (cBytes value ++ rest) := by simp
      have hnext : (pre ++ key.map Subtype.val).length + 1 =
          (pre ++ lead ++ cBytes (trim key) ++ List.replicate k 0).length := by
        simp only [length_append, length_map, length_cBytes, length_replicate]
        omega
      -- the value
      obtain ⟨lead', k', hlen', hvalue⟩ :=
        stripAt_eq (pre ++ lead ++ cBytes (trim key) ++ List.replicate k 0) value rest
      rw [hmid, hnext, hvalue, bind_some]
      dsimp only
      have hat : stringAt (pre ++ lead ++ cBytes (trim key) ++ List.replicate k 0 ++
          (lead' ++ (cBytes (trim value) ++ (List.replicate k' 0 ++ rest)))) (pre.length + lead.length) =
            some (trim key) := by
        have := stringAt_cBytes (pre ++ lead) (trim key) (List.replicate k 0 ++
          (lead' ++ (cBytes (trim value) ++ (List.replicate k' 0 ++ rest))))
        rw [length_append] at this
        simpa using this
      rw [hat, bind_some]
      have hsize : (pre ++ lead ++ cBytes (trim key) ++ List.replicate k 0 ++
          (lead' ++ (cBytes (trim value) ++ (List.replicate k' 0 ++ rest)))).length =
            (pre ++ key.map Subtype.val ++ d.1 :: (cBytes value ++ rest)).length := by
        simp only [length_append, length_map, length_cBytes, length_replicate, length_cons]
        omega
      cases nameToValue keywords (trim key) with
      | none => exact ⟨_, rfl, hsize⟩
      | some n =>
        dsimp only [map_some, elim_some]
        have hbefore : trim value = [] → ∃ b, b ≠ 92 ∧
            (pre ++ lead ++ cBytes (trim key) ++ List.replicate k 0 ++ lead').getLast? = some b := by
          intro hempty
          have hnil : value = [] := by
            by_contra hne
            -- a value that is not empty ends as the line does
            obtain ⟨c, hc, hspace⟩ := htrim
            rw [append_cons, getLast?_append_of_ne_nil _ hne] at hc
            obtain ⟨w, rfl⟩ := getLast?_eq_some_iff.mp hc
            rw [trim_concat hspace] at hempty
            exact absurd hempty (by simp)
          rw [hnil] at hlen'
          have hlead : lead' = [] := eq_nil_of_length_eq_zero (by rw [length_nil] at hlen'; omega)
          refine ⟨0, by decide, ?_⟩
          rw [hlead, append_nil, cBytes]
          cases k with
          | zero => simp
          | succ k => rw [replicate_succ', ← append_assoc, getLast?_concat]
        obtain ⟨buf', heq, hbuf'⟩ := addvalueAt_eq { p with key := some n }
          (pre ++ lead ++ cBytes (trim key) ++ List.replicate k 0 ++ lead') (trim value) (List.replicate k' 0 ++ rest)
          hbefore
        have hlen : (pre ++ lead ++ cBytes (trim key) ++ List.replicate k 0 ++ lead').length =
            (pre ++ lead ++ cBytes (trim key) ++ List.replicate k 0).length + lead'.length := length_append
        rw [hlen, append_assoc] at heq
        rw [append_assoc] at hbuf'
        exact ⟨buf', heq, hbuf'.trans hsize⟩

end Lines

/-! ### The file in the buffer -/

section File

variable {buf line text : List UInt8}

/-- The body of the loop stays in the buffer and does what it does to the line. -/
theorem lineAt_eq (p : Parse) (s : CString) (rest : List UInt8) :
    ∃ buf', p.lineAt (cBytes s ++ rest) = some (p.line (cBytes s ++ rest), buf') ∧
      buf'.length = (cBytes s ++ rest).length := by
  rw [Parse.lineAt, Parse.line, strlen_cBytes, cString_cBytes, bind_some]
  by_cases hlong : s.length ≥ bufSize - 1
  · rw [if_pos hlong, if_pos hlong]
    exact ⟨_, rfl, rfl⟩
  rw [if_neg hlong, if_neg hlong]
  obtain ⟨lead, k, hlen, hstrip⟩ := stripAt_eq [] s rest
  rw [nil_append, nil_append, length_nil, zero_add] at hstrip
  have hsize : (lead ++ (cBytes (trim s) ++ (List.replicate k 0 ++ rest))).length = (cBytes s ++ rest).length := by
    simp only [length_append, length_cBytes, length_replicate]
    omega
  rw [hstrip, bind_some, stripWhitespaces_eq]
  dsimp only
  cases htrim : trim s with
  | nil =>
    rw [htrim] at hsize
    have hload : load (lead ++ (cBytes [] ++ (List.replicate k 0 ++ rest))) lead.length = some 0 :=
      load_append lead 0 _
    rw [hload, bind_some, if_pos (.inl rfl), if_pos (.inl rfl)]
    exact ⟨_, rfl, hsize⟩
  | cons c cs =>
    have hend : Trimmed (c :: cs) := htrim ▸ trimmed_trim (s := s) (by simp [htrim])
    rw [htrim] at hsize
    have hload : load (lead ++ (cBytes (c :: cs) ++ (List.replicate k 0 ++ rest))) lead.length = some c.1 :=
      load_append lead c.1 _
    rw [hload, bind_some]
    by_cases hcomment : c.1 = 35
    · rw [if_pos (.inr hcomment), if_pos (.inr (congrArg some hcomment))]
      exact ⟨_, rfl, hsize⟩
    · have hno : ¬ ((c :: cs) = [] ∨ (c :: cs).head?.map Subtype.val = some 35) := by simp [hcomment]
      rw [if_neg (by simp [c.2, hcomment]), if_neg hno]
      cases p.keyExpected with
      | true =>
        obtain ⟨buf', heq, hbuf'⟩ := keyLineAt_eq p lead (c :: cs) (List.replicate k 0 ++ rest) hend
        exact ⟨buf', heq, hbuf'.trans hsize⟩
      | false =>
        obtain ⟨buf', heq, hbuf'⟩ := addvalueAt_eq p lead (c :: cs) (List.replicate k 0 ++ rest) (by simp)
        exact ⟨buf', heq, hbuf'.trans hsize⟩

/-- Memory with a NUL begins with a string. -/
theorem exists_cBytes (line tail : List UInt8) : ∃ rest, line ++ 0 :: tail = cBytes (cString line) ++ rest := by
  induction line with
  | nil => exact ⟨tail, rfl⟩
  | cons b line ih =>
    obtain ⟨rest, hrest⟩ := ih
    rw [cString]
    by_cases hb : b = 0
    · rw [dif_pos hb, hb]
      exact ⟨line ++ 0 :: tail, rfl⟩
    · rw [dif_neg hb]
      exact ⟨rest, by rw [cBytes_cons, cons_append, cons_append, hrest]⟩

/-- A line is the same to the loop with what follows it in the buffer. -/
theorem line_congr (p : Parse) {buf buf' : List UInt8} (h : cString buf = cString buf') : p.line buf = p.line buf' := by
  rw [Parse.line, Parse.line, h]

theorem length_fgetsAll (text buf : List UInt8) (hbuf : buf.length < bufSize - 1) :
    ∀ line ∈ fgetsAll text buf, line.length < bufSize := by
  induction text generalizing buf with
  | nil =>
    intro line hline
    rw [fgetsAll] at hline
    split at hline
    · cases hline
    · rw [mem_singleton.mp hline]
      omega
  | cons b text ih =>
    intro line hline
    have hlen : (buf ++ [b]).length = buf.length + 1 := by simp
    rw [fgetsAll] at hline
    split at hline
    · rcases mem_cons.mp hline with rfl | hline
      · omega
      · exact ih [] (by decide) line hline
    · rename_i hgo
      exact ih (buf ++ [b]) (by omega) line hline

theorem foldlM_lineAt (p : Parse) (lines : List (List UInt8)) (hlines : ∀ line ∈ lines, line.length < bufSize)
    (hbuf : buf.length = bufSize) :
    ∃ buf', lines.foldlM (fun (s : Parse × List UInt8) line => s.1.lineAt (fill s.2 line)) (p, buf) =
      some (lines.foldl Parse.line p, buf') := by
  induction lines generalizing p buf with
  | nil => exact ⟨buf, rfl⟩
  | cons line lines ih =>
    have hline := hlines line mem_cons_self
    have hfill : (fill buf line).length = bufSize := by
      rw [fill, length_append, length_cons, length_drop]
      omega
    obtain ⟨rest, hrest⟩ := exists_cBytes line (buf.drop (line.length + 1))
    obtain ⟨buf', heq, hbuf'⟩ := lineAt_eq p (cString line) rest
    rw [← hrest] at heq hbuf'
    have hsame : p.line (line ++ 0 :: buf.drop (line.length + 1)) = p.line line :=
      line_congr p (by rw [hrest, cString_cBytes])
    rw [hsame] at heq
    have hlen : buf'.length = bufSize := hbuf'.trans hfill
    obtain ⟨buf'', hfold⟩ := ih (p.line line) (fun l hl => hlines l (mem_cons_of_mem _ hl)) hlen
    refine ⟨buf'', ?_⟩
    rw [foldlM_cons, fill, heq]
    exact hfold

/-- Whatever is in the buffer at the start, nothing outside of it is read or written. -/
theorem cfgParseAt_eq (hbuf : buf.length = bufSize) (text : List UInt8) (c : Config) :
    cfgParseAt buf text c = some (cfgParseFile text c) := by
  obtain ⟨buf', hfold⟩ := foldlM_lineAt (.fresh c) (fgetsAll text []) (length_fgetsAll text [] (by decide)) hbuf
  rw [cfgParseAt, hfold, map_some]
  rfl

/-- `cfg_parse_file` never leaves its buffer. Of a file of short lines it returns true if and only if all logical
    lines are valid assignments, and these are what the configuration gets. -/
theorem cfg_parse_file (text : List UInt8) (c : Config) :
    (∀ buf, buf.length = bufSize → cfgParseAt buf text c = some (cfgParseFile text c)) ∧
      (ShortLines text →
        ((cfgParseFile text c).1 = true ↔ ∃ as, assignments text = some as ∧ as.all Valid = true) ∧
          ∀ as, assignments text = some as → as.all Valid = true → (cfgParseFile text c).2 = collect c as) :=
  ⟨fun _ hbuf => cfgParseAt_eq hbuf text c, fun hshort => cfgParseFile_spec hshort c⟩

/-- A size on two lines, with a comment between them. -/
def continued : List UInt8 := cBytes (cLit "policysize = 1\\\n# more\n  00\n") |>.dropLast

theorem cfg_parse_file_continued : (cfgParseFile continued zeroConfig).1 = true ∧
    (cfgParseFile continued zeroConfig).2 = { zeroConfig with policysize := 100 } := by
  have hshort : ShortLines continued := by
    unfold ShortLines
    decide +kernel
  have has : assignments continued = some [(.policysize, cLit "100")] := by decide +kernel
  obtain ⟨hok, hconfig⟩ := (cfg_parse_file continued zeroConfig).2 hshort
  have hall : [(Key.policysize, cLit "100")].all Valid = true := by decide +kernel
  refine ⟨hok.mpr ⟨_, has, hall⟩, (hconfig _ has hall).trans ?_⟩
  decide +kernel

/-- A logical line as one line: the key may stand before the first `=` of all of it. -/
def joinedAssignments (text : List UInt8) : Option (List Assignment) :=
  (logicalLines (contentLines text)).mapM fun ps => assignment [ps.flatten]

/-- The `=` stands on the second line. -/
def equalsBelow : List UInt8 := cBytes (cLit "unixsocket \\\n= /tmp/x\n") |>.dropLast

/-- A line of 1022 characters and its newline. -/
def longComment : List UInt8 := List.replicate 1022 35 ++ [10]

/-- A file is accepted if what is joined are valid assignments. -/
def AcceptsJoined (text : List UInt8) (c : Config) : Prop :=
  (cfgParseFile text c).1 = true ↔ ∃ as, joinedAssignments text = some as ∧ as.all Valid = true

theorem not_acceptsJoined {text : List UInt8} {c : Config} {as : List Assignment} (has : joinedAssignments text = some as)
    (hall : as.all Valid = true) (hno : (cfgParseFile text c).1 = false) : ¬ AcceptsJoined text c := by
  intro h
  rw [h.mpr ⟨as, has, hall⟩] at hno
  cases hno

/-- The key is not found on the first line; and a comment of 1022 characters is too long with its newline. -/
theorem cfg_parse_file_joined : ¬ AcceptsJoined equalsBelow zeroConfig ∧ ¬ AcceptsJoined longComment zeroConfig := by
  have hjoined : joinedAssignments equalsBelow = some [(.unixsocket, cLit "/tmp/x")] := by decide +kernel
  have hcomment : joinedAssignments longComment = some [] := by decide +kernel
  exact ⟨not_acceptsJoined hjoined (by decide +kernel) (by decide +kernel),
    not_acceptsJoined hcomment rfl (by decide +kernel)⟩

end File

end Anoubis.Cfg

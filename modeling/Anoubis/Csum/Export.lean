import Anoubis.Csum.ImportRuns

/-! Writing checksums to a file (`anoubis_print_entries`), and reading them again.

    The name is written with escapes: a blank and a backslash behind a backslash, control characters with three octal
    digits. The uid belongs to the checksum and is written with it.

        name /etc/my file, uid 7, no checksum, key 0a, signature 0b0c

        /etc/my\ file - 0a 0b0c ⏎                   uid 0 when it is read

    `anoubis_print_file` looks at the name as signed characters: bytes from 128 on are negative and are written as
    octal numbers of 32 bits. -/

namespace Anoubis.Csum

open Option

open Anoubis.Lib List

/-! ### Printing -/

/-- The bytes of digits. -/
def digitBytes (digits : List Char) : List UInt8 := digits.map fun c => UInt8.ofNat c.toNat

/-- `%03o`. -/
def octalText (n : ℕ) : List UInt8 :=
  let digits := digitBytes (Nat.toDigits 8 n)
  List.replicate (3 - digits.length) 48 ++ digits

/-- A `char` as an `unsigned int`. -/
def signExtend (c : UInt8) : ℕ := if c < 128 then c.toNat else 2 ^ 32 - 256 + c.toNat

/-- One character of `anoubis_print_file`. -/
def printChar (c : UInt8) : List UInt8 :=
  if c < 32 ∨ 128 ≤ c then 92 :: octalText (signExtend c) else if c = 32 ∨ c = 92 then [92, c] else [c]

/-- `anoubis_print_file`. -/
def anoubisPrintFile (name : CString) : List UInt8 := name.flatMap fun c => printChar c.1

def hexChar (n : UInt8) : UInt8 := if n < 10 then 48 + n else 87 + n

/-- `anoubis_print_signature`, for checksums and key IDs too. -/
def anoubisPrintSignature (bytes : List UInt8) : List UInt8 :=
  bytes.flatMap fun b => [hexChar (b / 16), hexChar (b % 16)]

/-- A uid and a checksum, or `-`. -/
def printCsum (e : SfsEntry) : List UInt8 :=
  e.checksum.elim [45] fun cs => digitBytes (Nat.toDigits 10 e.uid.toNat) ++ 32 :: anoubisPrintSignature cs

/-- A key ID and a signature, or `-`. -/
def printSig (e : SfsEntry) : List UInt8 :=
  e.signature.elim [45] fun sig => e.keyid.elim [] anoubisPrintSignature ++ 32 :: anoubisPrintSignature sig

/-- One entry, without the newline. -/
def printEntry (e : SfsEntry) : List UInt8 := anoubisPrintFile e.name ++ 32 :: (printCsum e ++ 32 :: printSig e)

/-- `anoubis_print_entries`. -/
def anoubisPrintEntries (es : List SfsEntry) : List UInt8 := es.flatMap fun e => printEntry e ++ [10]

/-- The entries that can be exchanged: an absolute name of ASCII characters, a checksum of the right length, a
    signature with its key ID, each of them short enough for the lexer. -/
structure Exportable (e : SfsEntry) : Prop where
  absolute : e.name.head?.map Subtype.val = some 47
  ascii : ∀ c ∈ e.name, c.1 < 127
  short : e.name.length < bufSize
  checksum : ∀ cs ∈ e.checksum, cs.length = csLen
  unsigned : e.signature = none → e.keyid = none
  signature : ∀ sig ∈ e.signature, sig ≠ [] ∧ 2 * sig.length < bufSize ∧
    ∃ keyid, e.keyid = some keyid ∧ keyid ≠ [] ∧ 2 * keyid.length < bufSize

/-- What the file says of an entry. -/
def exported (e : SfsEntry) : SfsEntry := { e with uid := if e.checksum.isSome then e.uid else 0 }

/-! ### Numbers -/

section Numbers

variable {s : List UInt8} {n : ℕ} {b : UInt8}

theorem forall_hexChar (n : ℕ) (hn : n < 16) : isH (hexChar (UInt8.ofNat n)) = true ∧
    chartohex (hexChar (UInt8.ofNat n)) = some (UInt8.ofNat n) := by
  have h : ∀ n < 16, isH (hexChar (UInt8.ofNat n)) = true ∧
      chartohex (hexChar (UInt8.ofNat n)) = some (UInt8.ofNat n) := by decide
  exact h n hn

theorem hexChar_spec (hb : b < 16) : isH (hexChar b) = true ∧ chartohex (hexChar b) = some b := by
  have h := forall_hexChar b.toNat hb
  rwa [UInt8.ofNat_toNat] at h

theorem div_lt (b : UInt8) : b / 16 < 16 := by
  rw [UInt8.lt_iff_toNat_lt, UInt8.toNat_div]
  have := b.toNat_lt
  simp only [UInt8.reduceToNat]
  omega

theorem mod_lt (b : UInt8) : b % 16 < 16 := by
  rw [UInt8.lt_iff_toNat_lt, UInt8.toNat_mod]
  simp only [UInt8.reduceToNat]
  omega

theorem div_mod (b : UInt8) : b / 16 * 16 + b % 16 = b := by
  apply UInt8.toNat_inj.mp
  have := b.toNat_lt
  rw [UInt8.toNat_add, UInt8.toNat_mul, UInt8.toNat_div, UInt8.toNat_mod]
  simp only [UInt8.reduceToNat]
  omega

variable (bytes : List UInt8)

theorem isH_print : ∀ c ∈ anoubisPrintSignature bytes, isH c := by
  intro c hc
  obtain ⟨b, -, hc⟩ := mem_flatMap.mp hc
  rcases mem_cons.mp hc with rfl | hc
  · exact (hexChar_spec (div_lt b)).1
  · rw [mem_singleton] at hc
    rw [hc]
    exact (hexChar_spec (mod_lt b)).1

theorem length_print : (anoubisPrintSignature bytes).length = 2 * bytes.length := by
  induction bytes with
  | nil => rfl
  | cons b bytes ih =>
    rw [anoubisPrintSignature, flatMap_cons, length_append]
    rw [anoubisPrintSignature] at ih
    rw [ih]
    simp only [length_cons, length_nil]
    omega

/-- Digits are read as the bytes they are printed for. -/
theorem hexBytes_print : hexBytes (anoubisPrintSignature bytes) = some bytes := by
  induction bytes with
  | nil => rfl
  | cons b bytes ih =>
    rw [anoubisPrintSignature] at ih
    rw [anoubisPrintSignature, flatMap_cons, cons_append, cons_append, nil_append, hexBytes, ih,
      (hexChar_spec (div_lt b)).2, (hexChar_spec (mod_lt b)).2]
    exact congrArg (fun x => some (x :: bytes)) (div_mod b)

theorem zero_not_mem (h : ∀ c ∈ s, isH c) : 0 ∉ s := fun h0 => absurd (h 0 h0) (by decide)

theorem string2hex_print : string2hex (cString (anoubisPrintSignature bytes)) = some bytes := by
  rw [string2hex, map_cString (zero_not_mem (isH_print bytes)), length_print]
  rw [if_pos (.inl (by omega)), hexBytes_print]

/-- The bytes of decimal digits. -/
theorem digit_bounds {c : Char} (hc : c ∈ Nat.toDigits 10 n) : 48 ≤ c.toNat ∧ c.toNat ≤ 57 := by
  have hdigit := Nat.isDigit_of_mem_toDigits (by decide) (by decide) hc
  rw [Char.isDigit, Bool.and_eq_true, decide_eq_true_iff, decide_eq_true_iff] at hdigit
  exact hdigit

theorem isDigit_ofNat (n : ℕ) (h : 48 ≤ n ∧ n ≤ 57) : isDigit (UInt8.ofNat n) = true ∧ isH (UInt8.ofNat n) = true := by
  have hall : ∀ n < 58, 48 ≤ n → isDigit (UInt8.ofNat n) = true ∧ isH (UInt8.ofNat n) = true := by decide
  exact hall n (Nat.lt_succ_of_le h.2) h.1

theorem isDigit_digitBytes (n : ℕ) : ∀ c ∈ digitBytes (Nat.toDigits 10 n), isDigit c = true ∧ isH c = true := by
  intro c hc
  obtain ⟨d, hd, rfl⟩ := mem_map.mp hc
  exact isDigit_ofNat d.toNat (digit_bounds hd)

theorem value_digitBytes (n : ℕ) :
    (digitBytes (Nat.toDigits 10 n)).foldl (fun n c => 10 * n + (c.toNat - 48)) 0 = n := by
  have hfold : (digitBytes (Nat.toDigits 10 n)).foldl (fun n c => 10 * n + (c.toNat - 48)) 0 =
      Nat.ofDigitChars 10 (Nat.toDigits 10 n) 0 := by
    rw [digitBytes, foldl_map, Nat.ofDigitChars_eq_foldl]
    refine foldl_ext _ _ _ fun v c hc => ?_
    have hbounds := digit_bounds hc
    rw [UInt8.toNat_ofNat', Nat.mod_eq_of_lt (by omega)]
    rfl
  rw [hfold, Nat.ofDigitChars_ten_toDigits]

theorem scanUid_print (uid : UInt32) : scanUid (cString (digitBytes (Nat.toDigits 10 uid.toNat))) = some uid := by
  have hdigits := isDigit_digitBytes uid.toNat
  have hne : digitBytes (Nat.toDigits 10 uid.toNat) ≠ [] := by
    rw [digitBytes, Ne, map_eq_nil_iff]
    exact Nat.toDigits_ne_nil
  have hlt : uid.toNat ≤ 2 ^ 63 - 1 := by
    have := uid.toNat_lt
    omega
  rw [scanUid, map_cString (zero_not_mem fun c hc => (hdigits c hc).2)]
  rw [if_pos ⟨hne, all_eq_true.mpr fun c hc => (hdigits c hc).1⟩, value_digitBytes, Nat.min_eq_left hlt,
    UInt32.ofNat_toNat]

/-- The digits are at most ten. -/
theorem length_digitBytes (uid : UInt32) : (digitBytes (Nat.toDigits 10 uid.toNat)).length ≤ 10 := by
  rw [digitBytes, length_map, Nat.length_toDigits_le_iff (by decide) (by decide)]
  exact Nat.lt_trans uid.toNat_lt (by decide)

end Numbers

/-! ### The lexer on what was printed -/

section Lexer

variable {b : TokenBuf} {c : UInt8} {run rest digits : List UInt8}

/-- A run of digits is one token. -/
theorem lex_hex (hne : run ≠ []) (hH : ∀ c ∈ run, isH c) (hlen : run.length < bufSize) (hc : isW c) :
    tokens (run ++ c :: rest) = .hex (cString run) :: tokens (c :: rest) := by
  have hcH : isH c = false := by
    rcases isW_iff.mp hc with rfl | rfl | rfl <;> decide
  have hskip : ∀ w r : List UInt8, lex w.length .initial (w ++ r) = tokens r := by
    intro w r
    induction w with
    | nil => rfl
    | cons d w ih =>
      rw [length_cons, cons_append, lex]
      exact ih
  cases run with
  | nil => exact absurd rfl hne
  | cons d w =>
    have hd := forall_mem_cons.mp hH
    have hd45 : d ≠ 45 := fun h => absurd hd.1 (by rw [h]; decide)
    have hd47 : d ≠ 47 := fun h => absurd hd.1 (by rw [h]; decide)
    have htake : (w ++ c :: rest).takeWhile isH = w := by
      rw [takeWhile_append_of_pos hd.2, takeWhile_cons_of_neg (by simp [hcH]), append_nil]
    have hdrop : (w ++ c :: rest).dropWhile isH = c :: rest := by
      rw [dropWhile_append_of_pos hd.2, dropWhile_cons_of_neg (by simp [hcH])]
    have hbuf : ((TokenBuf.empty.append (d :: w)).bind TokenBuf.produce) = some (cString (d :: w)) := by
      rw [TokenBuf.append, if_pos (by simpa [TokenBuf.empty] using hlen), bind_some, TokenBuf.produce]
      rw [if_pos (by simpa [TokenBuf.empty] using hlen)]
      rfl
    have hrule : initialRule d (w ++ c :: rest) = ⟨[.hex (cString (d :: w))], .initial, w.length⟩ := by
      rw [initialRule, htake, hdrop]
      rw [if_neg (fun h => hd45 h.1), if_neg hd47, if_pos ⟨hd.1, hc⟩, hbuf]
      rfl
    rw [tokens, cons_append, lex, rule, hrule, hskip]
    rfl

theorem lex_minus (hc : isW c) : tokens (45 :: c :: rest) = .minus :: tokens (c :: rest) := by
  have hrule : initialRule 45 (c :: rest) = ⟨[.minus], .initial, 0⟩ := by
    rw [initialRule, if_pos ⟨rfl, hc⟩]
  rw [tokens, lex, rule, hrule]
  rfl

theorem lex_space (rest : List UInt8) : tokens (32 :: rest) = tokens rest := by
  exact tokens_blank (w := [32]) (by decide) (by simp [Blank, isW]) rest

/-- One more character in the buffer. -/
def TokenBuf.push (b : TokenBuf) (c : UInt8) : TokenBuf := ⟨b.bytes ++ [c], b.buflen + 1⟩

theorem append_push (c : UInt8) (hb : b.buflen + 1 < bufSize) : b.append [c] = some (b.push c) := by
  rw [TokenBuf.append, if_pos (by rw [length_singleton]; omega)]
  rfl

/-- Three octal digits. -/
theorem octalText_spec (n : ℕ) (hn : n < 32) : (octalText n).length = 3 ∧ (∀ d ∈ octalText n, isO d = true) ∧
    octal (octalText n) = UInt8.ofNat n := by
  have h : ∀ n < 32, (octalText n).length = 3 ∧ (∀ d ∈ octalText n, isO d = true) ∧
      octal (octalText n) = UInt8.ofNat n := by decide +kernel
  exact h n hn

/-- Octal digits behind a backslash are one character. -/
theorem lex_octal (hlen : digits.length = 3) (hO : ∀ d ∈ digits, isO d) (hb : b.buflen + 1 < bufSize) :
    lex 0 (.filename b) (92 :: (digits ++ rest)) = lex 0 (.filename (b.push (octal digits))) rest := by
  obtain ⟨x, y, z, rfl⟩ := length_eq_three.mp hlen
  have htake : (([x, y, z] ++ rest).takeWhile isO).take 3 = [x, y, z] := by
    rw [takeWhile_append_of_pos hO]
    rfl
  have hx : isO x = true := hO x mem_cons_self
  have hx92 : x ≠ 92 := fun h => absurd hx (by rw [h]; decide)
  have hxW : isW x = false := by
    rw [Bool.eq_false_iff, Ne, isW_iff]
    rintro (rfl | rfl | rfl) <;> exact absurd hx (by decide)
  have hrule : filenameRule b 92 ([x, y, z] ++ rest) = ⟨[], .filename (b.push (octal [x, y, z])), 3⟩ := by
    rw [filenameRule, htake]
    rw [if_neg (by simpa using hx92), if_neg (by simp [hxW]), if_pos ⟨rfl, rfl⟩, append_push _ hb]
    rfl
  rw [lex, rule, hrule]
  rfl

/-- A character that is printed is read. -/
theorem lex_printChar (hc : c < 127) (hb : b.buflen + 1 < bufSize) :
    lex 0 (.filename b) (printChar c ++ rest) = lex 0 (.filename (b.push c)) rest := by
  have h128 : ¬128 ≤ c := UInt8.not_le.mpr (UInt8.lt_trans hc (by decide))
  rw [printChar]
  split_ifs with h1 h2
  · obtain ⟨hlen, hO, hvalue⟩ := octalText_spec c.toNat (h1.resolve_right h128)
    have hn : signExtend c = c.toNat := if_pos (UInt8.not_le.mp h128)
    rw [hn, cons_append, lex_octal hlen hO hb, hvalue, UInt8.ofNat_toNat]
  · have hrule : filenameRule b 92 (c :: rest) = ⟨[], .filename (b.push c), 1⟩ := by
      rw [filenameRule]
      rcases h2 with rfl | rfl
      · rw [if_neg (by simp), if_pos (by simp [isW]), take_succ_cons, take_zero, append_push _ hb]
        rfl
      · rw [if_pos (by simp), append_push _ hb]
        rfl
    rw [cons_append, cons_append, nil_append, lex, rule, hrule]
    rfl
  · rw [not_or] at h1 h2
    have hprint : isprint c = true := by
      rw [isprint, Bool.and_eq_true, decide_eq_true_iff, decide_eq_true_iff]
      refine ⟨UInt8.not_lt.mp h1.1, UInt8.le_iff_toNat_le.mpr ?_⟩
      exact Nat.le_of_lt_succ (UInt8.lt_iff_toNat_lt.mp hc)
    have hW : isW c = false := by
      rw [Bool.eq_false_iff, Ne, isW_iff]
      rintro (rfl | rfl | rfl)
      · exact h2.1 rfl
      · exact absurd h1.1 (by decide)
      · exact absurd h1.1 (by decide)
    have hrule : filenameRule b c rest = ⟨[], .filename (b.push c), 0⟩ := by
      rw [filenameRule, if_neg (fun h => h2.2 h.1), if_neg (fun h => h2.2 h.1), if_neg (fun h => h2.2 h.1),
        if_pos ⟨h2.2, hprint, hW⟩, append_push _ hb]
      rfl
    rw [cons_append, nil_append, lex, rule, hrule]
    rfl

/-- A name and the blank behind it. -/
theorem lex_name (name : CString) (rest : List UInt8) (hname : ∀ c ∈ name, c.1 < 127)
    (hb : b.buflen + name.length < bufSize) : lex 0 (.filename b) (anoubisPrintFile name ++ 32 :: rest) =
      .filename (cString (b.bytes ++ name.map Subtype.val)) :: tokens rest := by
  induction name generalizing b with
  | nil =>
    have hrule : filenameRule b 32 rest = ⟨[.filename (cString b.bytes)], .initial, 0⟩ := by
      rw [filenameRule]
      rw [if_neg (by simp), if_neg (by simp), if_neg (by simp), if_neg (by simp [isW]),
        initialRule_blank (by decide) rfl]
      rw [Action.again, TokenBuf.produce, if_pos (show b.buflen < bufSize from hb)]
      rfl
    rw [map_nil, append_nil]
    change lex 0 (.filename b) (32 :: rest) = _
    rw [lex, rule, hrule]
    rfl
  | cons c name ih =>
    have hc := forall_mem_cons.mp hname
    rw [length_cons] at hb
    rw [anoubisPrintFile, flatMap_cons, append_assoc, lex_printChar hc.1 (by omega)]
    rw [anoubisPrintFile] at ih
    rw [ih hc.2 (by rw [TokenBuf.push]; dsimp only; omega), TokenBuf.push, map_cons, append_assoc,
      singleton_append]

/-- An absolute name. -/
theorem tokens_name {name : CString} (habs : name.head?.map Subtype.val = some 47) (hname : ∀ c ∈ name, c.1 < 127)
    (hlen : name.length < bufSize) : tokens (anoubisPrintFile name ++ 32 :: rest) = .filename name :: tokens rest := by
  cases name with
  | nil => exact absurd habs (by simp)
  | cons c name =>
    have hc : c.1 = 47 := some.inj habs
    have hprint : printChar c.1 = [47] := by rw [hc]; rfl
    rw [anoubisPrintFile, flatMap_cons, hprint, append_assoc, singleton_append]
    have hrule : ∀ rest, initialRule 47 rest = ⟨[], .filename ⟨[47], 1⟩, 0⟩ := fun rest => rfl
    have hb : (⟨[47], 1⟩ : TokenBuf).buflen + name.length < bufSize := by
      rw [length_cons] at hlen
      dsimp only
      omega
    have hbytes : [47] ++ name.map Subtype.val = (c :: name).map Subtype.val := by rw [map_cons, hc]; rfl
    have h := lex_name name rest (forall_mem_cons.mp hname).2 hb
    rw [hbytes, cString_map] at h
    rw [tokens, lex, rule, hrule]
    exact h

end Lexer

/-! ### Lines -/

section Lines

variable {e : SfsEntry} {rest : List UInt8}

/-- The checksum and the blank behind it. -/
theorem tokens_csum (he : Exportable e) : ∃ ts, Csentry ts (e.checksum.map fun cs => (e.uid, cs)) ∧
    ∀ rest, tokens (printCsum e ++ 32 :: rest) = ts ++ tokens rest := by
  cases hcs : e.checksum with
  | none =>
    refine ⟨_, .minus, fun rest => ?_⟩
    rw [printCsum, hcs]
    change tokens (45 :: 32 :: rest) = _
    rw [lex_minus rfl, lex_space]
    rfl
  | some cs =>
    have hlen : cs.length = csLen := he.checksum cs hcs
    have hne : anoubisPrintSignature cs ≠ [] := by
      rw [← length_pos_iff, length_print, hlen]
      decide
    have huid : digitBytes (Nat.toDigits 10 e.uid.toNat) ≠ [] := by
      rw [digitBytes, Ne, map_eq_nil_iff]
      exact Nat.toDigits_ne_nil
    have hentry : csentry (cString (digitBytes (Nat.toDigits 10 e.uid.toNat))) (cString (anoubisPrintSignature cs)) =
        some (e.uid, cs) := by
      rw [csentry, scanUid_print, string2hex_print]
      exact if_pos hlen
    refine ⟨_, .hex hentry, fun rest => ?_⟩
    rw [printCsum, hcs, elim_some, append_assoc, cons_append]
    rw [lex_hex huid (fun c hc => (isDigit_digitBytes _ c hc).2)
      (Nat.lt_of_le_of_lt (length_digitBytes e.uid) (by decide)) rfl, lex_space]
    rw [lex_hex hne (isH_print cs) (by rw [length_print, hlen]; decide) rfl, lex_space]
    rfl

/-- The signature and the end of the line. -/
theorem tokens_sig (he : Exportable e) : ∃ ts sig, Sigentry ts sig ∧ sig.map Prod.fst = e.keyid ∧
    sig.map Prod.snd = e.signature ∧ tokens (printSig e ++ [10]) = ts ++ [.newline] := by
  cases hsig : e.signature with
  | none =>
    refine ⟨_, none, .minus, (he.unsigned hsig).symm, rfl, ?_⟩
    rw [printSig, hsig]
    exact lex_minus rfl
  | some sig =>
    obtain ⟨hne, hlen, keyid, hkeyid, hkne, hklen⟩ := he.signature sig hsig
    have hprint : ∀ {bytes : List UInt8}, bytes ≠ [] → anoubisPrintSignature bytes ≠ [] := by
      intro bytes hbytes
      rw [← length_pos_iff, length_print]
      exact Nat.mul_pos (by decide) (length_pos_iff.mpr hbytes)
    have hentry : sigentry (cString (anoubisPrintSignature keyid)) (cString (anoubisPrintSignature sig)) =
        some (keyid, sig) := by
      rw [sigentry, string2hex_print, string2hex_print, bind_some, bind_some, nonempty, nonempty,
        if_neg hkne, if_neg hne]
      rfl
    refine ⟨_, some (keyid, sig), .hex hentry, hkeyid.symm, rfl, ?_⟩
    rw [printSig, hsig, hkeyid, elim_some, elim_some, append_assoc, cons_append]
    rw [lex_hex (hprint hkne) (isH_print keyid) (by rw [length_print]; exact hklen) rfl, lex_space]
    rw [lex_hex (hprint hne) (isH_print sig) (by rw [length_print]; exact hlen) rfl]
    rfl

/-- A printed line has the record of its entry. -/
theorem isRecord_printEntry (he : Exportable e) : IsRecord (tokens (printEntry e ++ [10])) (exported e) := by
  obtain ⟨cs, hcs, hcsum⟩ := tokens_csum he
  obtain ⟨ss, sig, hss, hkeyid, hsig, hsigs⟩ := tokens_sig he
  refine ⟨e.name, cs, _, ss, sig, hcs, hss, ?_, ?_⟩
  · rw [printEntry, append_assoc, cons_append, tokens_name he.absolute he.ascii he.short, append_assoc,
      cons_append, hcsum, hsigs, append_assoc]
  · rw [exported, lineEntry, hkeyid, hsig]
    cases e.checksum <;> rfl

theorem newline_not_mem_printChar {c : UInt8} (hc : c < 127) : 10 ∉ printChar c := by
  have h128 : ¬128 ≤ c := UInt8.not_le.mpr (UInt8.lt_trans hc (by decide))
  rw [printChar]
  split_ifs with h1 h2
  · have hn : signExtend c = c.toNat := if_pos (UInt8.not_le.mp h128)
    rw [hn, mem_cons, not_or]
    refine ⟨by decide, fun h => ?_⟩
    exact absurd ((octalText_spec c.toNat (h1.resolve_right h128)).2.1 10 h) (by decide)
  · rcases h2 with rfl | rfl <;> decide
  · rw [mem_singleton]
    rintro rfl
    exact h1 (.inl (by decide))

theorem newline_not_mem_hex {s : List UInt8} (hs : ∀ c ∈ s, isH c) : 10 ∉ s := fun h => absurd (hs 10 h) (by decide)

theorem newline_not_mem_printCsum (e : SfsEntry) : 10 ∉ printCsum e := by
  rw [printCsum]
  cases e.checksum with
  | none =>
    rw [elim_none]
    decide
  | some cs =>
    rw [elim_some, mem_append, not_or, mem_cons, not_or]
    exact ⟨newline_not_mem_hex fun c hc => (isDigit_digitBytes _ c hc).2, by decide, newline_not_mem_hex (isH_print cs)⟩

theorem newline_not_mem_printSig (e : SfsEntry) : 10 ∉ printSig e := by
  rw [printSig]
  cases e.signature with
  | none =>
    rw [elim_none]
    decide
  | some sig =>
    rw [elim_some, mem_append, not_or, mem_cons, not_or]
    refine ⟨?_, by decide, newline_not_mem_hex (isH_print sig)⟩
    cases e.keyid with
    | none => exact not_mem_nil
    | some keyid => exact newline_not_mem_hex (isH_print keyid)

/-- A printed line is one line. -/
theorem newline_not_mem_printEntry (he : ∀ c ∈ e.name, c.1 < 127) : 10 ∉ printEntry e := by
  have hname : 10 ∉ anoubisPrintFile e.name := by
    intro h
    obtain ⟨c, hc, h⟩ := mem_flatMap.mp h
    exact newline_not_mem_printChar (he c hc) h
  rw [printEntry, mem_append, mem_cons, mem_append, mem_cons]
  rintro (h | h | h | h | h)
  · exact hname h
  · exact absurd h (by decide)
  · exact newline_not_mem_printCsum e h
  · exact absurd h (by decide)
  · exact newline_not_mem_printSig e h

/-- The parser on printed lines, behind lines that had a record each. -/
theorem yyparse_printEntries {es : List SfsEntry} (hes : ∀ e ∈ es, Exportable e) :
    ∀ ls : List (Option SfsEntry), none ∉ ls → ls.length + es.length + 3 ≤ stackRoom →
      yyparse ls .start (tokens (anoubisPrintEntries es)) = .records (ls.reverse.reduceOption ++ es.map exported) := by
  induction es with
  | nil =>
    intro ls hnone hls
    rw [length_nil] at hls
    have hroom : Room ls := ⟨by omega, fun _ => by omega⟩
    rw [map_nil, append_nil]
    exact reduceFile_eq hroom hnone true
  | cons e es ih =>
    intro ls hnone hls
    have he := forall_mem_cons.mp hes
    rw [length_cons] at hls
    have hw := newline_not_mem_printEntry he.1.ascii
    obtain ⟨us, hus, hnot⟩ := tokens_complete hw
    have hread : readTokens .start (us ++ [.newline]) = ⟨.line (some (exported e)), 4⟩ := by
      rw [← hus]
      exact readTokens_record (isRecord_printEntry he.1)
    rw [anoubisPrintEntries, flatMap_cons, append_assoc, singleton_append, tokens_line _ hw, hus,
      append_assoc, singleton_append, yyparse_line (by omega) hnot, hread, afterLine,
      if_pos (by dsimp only; omega)]
    have hmore := ih he.2 (some (exported e) :: ls) (by simp [hnone]) (by rw [length_cons]; omega)
    rw [anoubisPrintEntries] at hmore
    dsimp only
    rw [hmore, reverse_cons, reduceOption_append, append_assoc]
    rfl

end Lines

/-! ### Export and import -/

/-- What is printed is read again: names, checksums, key IDs and signatures in their order, and the uids of the
    checksums. -/
theorem import_print (es : List SfsEntry) (hes : ∀ e ∈ es, Exportable e) (hlen : es.length ≤ 9995) :
    importCsum (anoubisPrintEntries es) = .records (es.map exported) := by
  have hroom : ([] : List (Option SfsEntry)).length + es.length + 3 ≤ stackRoom := by
    rw [List.length_nil, stackRoom]
    omega
  exact yyparse_printEntries hes [] List.not_mem_nil hroom

/-- A checksum and a signature. -/
def sampleEntry : SfsEntry where
  name := cLit "/etc/my file"
  uid := 7
  checksum := some (List.replicate 32 31)
  keyid := some [10]
  signature := some [11, 12]

theorem import_print_sample : importCsum (anoubisPrintEntries [sampleEntry]) = .records [sampleEntry] := by
  refine import_print [sampleEntry] (List.forall_mem_singleton.mpr ?_) (by decide)
  exact ⟨rfl, by decide +kernel, by decide, by decide +kernel, by decide, by decide +kernel⟩

/-- A signature only. -/
def sampleSigned : SfsEntry := { sampleEntry with checksum := none }

/-- Its uid is not written. -/
theorem import_print_signed : Exportable sampleSigned ∧
    importCsum (anoubisPrintEntries [sampleSigned]) = .records [{ sampleSigned with uid := 0 }] ∧
    importCsum (anoubisPrintEntries [sampleSigned]) ≠ .records [sampleSigned] := by
  have h : importCsum (anoubisPrintEntries [sampleSigned]) = .records [{ sampleSigned with uid := 0 }] := by
    decide +kernel
  refine ⟨⟨rfl, by decide +kernel, by decide, by decide +kernel, by decide, by decide +kernel⟩, h, ?_⟩
  rw [h]
  decide

end Anoubis.Csum

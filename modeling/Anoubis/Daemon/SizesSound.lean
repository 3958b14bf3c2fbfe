import Anoubis.Daemon.SizesParts

/-! What the size of a message of the daemon says about it.

    Every size function ends, reads nothing outside of the message, and returns a negative number or the size
    of parts that lie in it. The buffer of a function is a region `b … b + l` of the message, and the size
    counts the bytes from its start, so that it is where the function has got to. -/

namespace Anoubis.Daemon.Sizes

open Anoubis.Lib List
open Anoubis.Connection (Bytes u16 u32 csumLen)
open Anoubis.MsgVerify (int readU16 readU32 readU16_eq readU32_eq u16_lt u32_lt opAddsum opAddsig)
open Anoubis.PathEvent (peParsePathEvent peParsePathEvent_spec Declared)

attribute [local irreducible] int

variable {α : Type} {m : Bytes} {K : Kernel} {Q : α → Cur → Prop} {c : Cur} {b : ℕ} {l : ℤ} {P P' : ℤ → Prop}

/-! ### Measures -/

/-- A size that a function returns: it refuses, or it is an int and `P` holds of it. -/
def SizeOk (P : ℤ → Prop) (r : ℤ) : Prop := Refused r ∨ (0 ≤ r ∧ r < 2147483648 ∧ P r)

/-- The function ends in the message, and it returns a size of which `P` holds if it does not refuse. -/
def Measures (w : Walk Cur ℤ ℤ) (P : ℤ → Prop) (c : Cur) : Prop := wp Refused w (fun r _ => SizeOk P r) c

/-- The buffer lies in the message. -/
structure Region (m : Bytes) (b : ℕ) (l : ℤ) : Prop where
  inside : b + l ≤ m.length
  len : l < 2147483648

theorem SizeOk.mono {r : ℤ} (h : SizeOk P r) (hp : ∀ r, 0 ≤ r → P r → P' r) : SizeOk P' r :=
  h.imp_right fun ⟨h0, hlt, h⟩ => ⟨h0, hlt, hp r h0 h⟩

variable {w : Walk Cur ℤ ℤ} {f : Unit → Walk Cur ℤ α} {off n : ℕ}

theorem Measures.mono (h : Measures w P c) (hp : ∀ r, 0 ≤ r → P r → P' r) : Measures w P' c :=
  wp_mono h fun _ _ hr => hr.mono hp

theorem Measures.result (h : Measures w P c) : ∃ r, result w c = some r ∧ SizeOk P r := by
  refine result_of_wp (R := SizeOk P) ?_
  unfold Measures wp at h
  unfold wp
  split at h
  · exact h
  · exact .inl h
  · exact h

theorem call_rule {t : Cur} {f : ℤ → Walk Cur ℤ α} (h : Measures w P t)
    (hf : ∀ r, SizeOk P r → wp Refused (f r) Q c) : wp Refused (call w t >>= f) Q c := by
  obtain ⟨r, hr, hok⟩ := h.result
  exact peek_rule hr (hf r hok)

theorem variant_rule (hw : Measures w P ⟨c.buf, c.len, 0⟩) (hc : 0 ≤ c.size ∧ c.size ≤ sizeLimit)
    (h : ∀ r, 0 ≤ r → P r → c.size + r ≤ sizeLimit → wp Refused (f ()) Q { c with size := c.size + r }) :
    wp Refused (variant w >>= f) Q c := by
  rw [wp_bind, variant]
  refine get_rule (call_rule hw fun r hr => ?_)
  rw [← bind_pure (addSize r)]
  rcases hr with hneg | ⟨h0, hlt, hp⟩
  · exact addSize_rule ⟨hneg.1, by have := hneg.2; omega⟩ hc (fun h0 => absurd h0 (Int.not_le.mpr hneg.2))
      fun _ => refused
  · exact addSize_rule ⟨by omega, by omega⟩ hc (fun _ hle => h r h0 hp hle) fun _ => refused

theorem returnSize_measures (hc : 0 ≤ c.size ∧ c.size ≤ sizeLimit) (h : P c.size) : Measures returnSize P c := by
  have hlim : sizeLimit = 50000 := rfl
  exact returnSize_rule (by omega) (fun h0 _ => .inr ⟨h0, by omega, h⟩) fun _ => refused

/-! ### Simple messages -/

theorem checkFunction_measures (h : Region m b l) (size : ℕ) :
    Measures (checkFunction size) (fun r => r = size ∧ (size : ℤ) ≤ l) ⟨b, l, 0⟩ := by
  have hlen := h.len
  refine get_rule (ite_rule (fun _ => refused) fun hle => .inr ?_)
  have hle' : (size : ℤ) ≤ l := Int.not_lt.mp hle
  exact ⟨Int.natCast_nonneg _, by omega, rfl, hle'⟩

theorem size_zero : (0 : ℤ) ≤ 0 ∧ (0 : ℤ) ≤ sizeLimit := by decide

variable {size field fin fin' : ℕ} {len : ℕ → Option ℤ} {v : ℤ}

/-- CAST and SHIFT_FIELD at the start of a function. -/
theorem struct_rule (h : Region m b l) {f : Cur → Unit → Walk Cur ℤ α}
    (hf : (size : ℤ) ≤ l → (off : ℤ) ≤ l → (off : ℤ) ≤ sizeLimit →
      wp Refused (f ⟨b, l, 0⟩ ()) Q ⟨b + off, l - off, off⟩) :
    wp Refused (castTo size >>= fun _ => get >>= fun msg => shiftField msg.buf off >>= f msg) Q ⟨b, l, 0⟩ := by
  refine castTo_rule (fun hsize => get_rule ?_) fun _ => refused
  refine shiftField_rule h.len size_zero (fun _ hle hs => ?_) fun _ => refused
  simp only [Int.zero_add] at hs ⊢
  exact hf hsize hle hs

theorem stringCheckFunction_measures (h : Region m b l) (size field : ℕ) : Measures (stringCheckFunction m size field)
      (fun r => (size : ℤ) ≤ l ∧ r ≤ l ∧ ∃ p, FirstNul m (b + field) p ∧ (p : ℤ) < b + r) ⟨b, l, 0⟩ := by
  have hlim : sizeLimit = 50000 := rfl
  have hin := h.inside
  refine struct_rule h fun hsize hoff hs => ?_
  refine shiftString_rule (by intro _; dsimp only; omega) (by dsimp only; omega) (fun p hp hlt hs' => ?_)
    fun _ => refused
  have hle := hp.le
  dsimp only at hlt hle hs' ⊢
  exact returnSize_measures (by dsimp only; omega)
    ⟨hsize, by dsimp only; omega, p, hp, by dsimp only; omega⟩

/-- A struct with its length in a field. -/
theorem lenCheckFunction_rule (h : Region m b l) {Q : ℤ → Prop} (hlen : (size : ℤ) ≤ l → len b = some v)
    (hv : -2147483648 ≤ v ∧ v < 4294967296) (hQ : 0 ≤ v → field + v ≤ l → Q (field + v)) :
    Measures (lenCheckFunction size field len) Q ⟨b, l, 0⟩ := by
  have hlim : sizeLimit = 50000 := rfl
  have hl := h.len
  refine struct_rule h fun hsize hoff hs => get_rule (peek_rule (hlen hsize) ?_)
  refine checkLen_rule hv (by dsimp only; omega) (fun h0 hvl _ => ?_) fun _ => refused
  refine addSize_rule hv (by dsimp only; omega) (fun _ hs' => ?_) fun _ => refused
  dsimp only at hvl hs' ⊢
  exact returnSize_measures (by dsimp only; omega) (hQ h0 (by omega))

theorem lenCheckFunction_measures (h : Region m b l) (hlen : (size : ℤ) ≤ l → len b = some v)
    (hv : -2147483648 ≤ v ∧ v < 4294967296) :
    Measures (lenCheckFunction size field len) (fun _ => 0 ≤ v ∧ field + v ≤ l) ⟨b, l, 0⟩ :=
  lenCheckFunction_rule h hlen hv And.intro

/-! ### Strings -/

theorem StringIn.mono (h : StringIn m off fin) (hle : fin ≤ fin') : StringIn m off fin' := by
  obtain ⟨p, hp, hlt⟩ := h
  exact ⟨p, hp, Nat.lt_of_lt_of_le hlt hle⟩

theorem Strings.mono (h : Strings m fin n off) (hle : fin ≤ fin') : Strings m fin' n off := by
  induction n generalizing off with
  | zero => trivial
  | succ n ih =>
    obtain ⟨p, hp, hlt, hrest⟩ := h
    exact ⟨p, hp, Nat.lt_of_lt_of_le hlt hle, ih hrest⟩

theorem StringIn.of_hasNul (h : HasNul m off n) (hin : off + n ≤ m.length) : StringIn m off (off + n) := by
  obtain ⟨r, hr⟩ := scan_inside m off n hin
  cases r with
  | none =>
    have hnone := (scan_isSome_iff hr).mpr h
    cases hnone
  | some p =>
    obtain ⟨hp, hlt⟩ := scan_some hr
    exact ⟨p, hp, hlt⟩

/-- What is left of a buffer that lies in the message. -/
structure Rest (m : Bytes) (c : Cur) : Prop where
  inside : c.buf + c.len ≤ m.length
  nonneg : 0 ≤ c.len
  len : c.len < 2147483648
  size : 0 ≤ c.size ∧ c.size ≤ sizeLimit

theorem string_rule (hc : Rest m c) (h : ∀ k : ℕ, 0 < k → (∃ p, FirstNul m c.buf p ∧ p + 1 = c.buf + k) →
      Rest m ⟨c.buf + k, c.len - k, c.size + k⟩ → wp Refused (f ()) Q ⟨c.buf + k, c.len - k, c.size + k⟩) :
    wp Refused (shiftString m >>= f) Q c := by
  obtain ⟨hin, h0, hlen, hsize⟩ := hc
  refine shiftString_rule (by omega) hsize (fun p hp hlt hs => ?_) fun _ => refused
  have hle := hp.le
  have heq : p + 1 = c.buf + (p - c.buf + 1) := by omega
  rw [heq]
  exact h _ (by omega) ⟨p, hp, heq⟩ ⟨by dsimp only; omega, by dsimp only; omega, by dsimp only; omega,
    by dsimp only; omega⟩

/-- Strings one behind the other end where the buffer goes on. -/
theorem strings_end_rule {Q : Unit → Cur → Prop} (hc : Rest m c)
    (h : ∀ k : ℕ, Strings m (c.buf + k) n c.buf → Rest m ⟨c.buf + k, c.len - k, c.size + k⟩ →
      Q () ⟨c.buf + k, c.len - k, c.size + k⟩) : wp Refused (shiftStrings m n) Q c := by
  induction n generalizing c with
  | zero =>
    have := h 0 trivial (by simpa using hc)
    rw [shiftStrings, wp_pure]
    simpa using this
  | succ n ih =>
    refine string_rule hc fun k hk ⟨p, hp, hpk⟩ hrest => ih hrest fun k' hs hrest' => ?_
    have hbuf : c.buf + k + k' = c.buf + (k + k') := add_assoc ..
    have hl : c.len - (k : ℤ) - (k' : ℤ) = c.len - ((k + k' : ℕ) : ℤ) := by omega
    have hsz : c.size + (k : ℤ) + (k' : ℤ) = c.size + ((k + k' : ℕ) : ℤ) := by omega
    dsimp only at hs hrest' ⊢
    rw [hbuf, hl, hsz] at hrest'
    rw [hbuf, hl, hsz]
    rw [hbuf, ← hpk] at hs
    exact h _ ⟨p, hp, by omega, hs⟩ hrest'

/-- The buffer behind a structure. -/
theorem Region.rest (h : Region m b l) (hle : (off : ℤ) ≤ l) (hs : (off : ℤ) ≤ sizeLimit) :
    Rest m ⟨b + off, l - off, off⟩ := by
  have hin := h.inside
  have hlen := h.len
  exact ⟨by dsimp only; omega, by dsimp only; omega, by dsimp only; omega, by dsimp only; omega⟩

/-- Counted bytes. -/
theorem count_rule {cnt : ℕ} (hcnt : cnt < 4294967296) (hc : Rest m c)
    (h : (cnt : ℤ) ≤ c.len → Rest m ⟨c.buf + cnt, c.len - cnt, c.size + cnt⟩ →
      wp Refused (f ()) Q ⟨c.buf + cnt, c.len - cnt, c.size + cnt⟩) : wp Refused (shiftCnt cnt >>= f) Q c := by
  obtain ⟨hin, h0, hlen, hsize⟩ := hc
  refine shiftCnt_rule (by omega) hlen hsize (fun _ hle hs => ?_) fun _ => refused
  exact h hle ⟨by dsimp only; omega, by dsimp only; omega, by dsimp only; omega, by dsimp only; omega⟩

theorem lastString_rule (hc : Rest m c)
    (h : ∀ k : ℕ, (k : ℤ) ≤ c.len → StringIn m c.buf m.length → c.size + k ≤ sizeLimit →
      wp Refused (f ()) Q { c with size := c.size + k }) : wp Refused (strings m >>= f) Q c := by
  obtain ⟨hin, h0, hlen, hsize⟩ := hc
  refine strings_rule (by omega) hsize (fun k hk hnul hs => h k hk ?_ hs) refused
  exact (StringIn.of_hasNul hnul (by omega)).mono (by omega)

theorem Rest.returns (hc : Rest m c) (h : P c.size) : Measures returnSize P c := returnSize_measures hc.size h

/-! ### Messages with strings and counted bytes -/

theorem host4_lt (off : ℕ) : host m off 4 < 4294967296 := host_lt m off 4

theorem host2_lt (off : ℕ) : host m off 2 < 65536 := host_lt m off 2

theorem nat_range (h : n < 4294967296) : -2147483648 ≤ (n : ℤ) ∧ (n : ℤ) < 4294967296 := by omega

theorem Rest.within {l s : ℤ} (hc : Rest m ⟨off + n, l, s⟩) : Within m off n := by
  have hin := hc.inside
  have h0 := hc.nonneg
  dsimp only at hin h0
  unfold Within
  omega

theorem logitSize_measures (h : Region m 8 l) :
    Measures (logitSize m) (fun _ => StringIn m 12 m.length) ⟨8, l, 0⟩ := by
  refine struct_rule h fun _ hle hs => ?_
  refine lastString_rule (h.rest hle hs) fun k _ hstr hs' => ?_
  exact returnSize_measures ⟨by dsimp only; omega, hs'⟩ hstr

theorem sfsUpdateAllSize_measures (h : Region m 8 l) : Measures (sfsUpdateAllSize m)
      (fun _ => Within m 12 (host m 8 4) ∧ StringIn m (12 + host m 8 4) m.length) ⟨8, l, 0⟩ := by
  have hin := h.inside
  refine struct_rule h fun _ hle hs => ?_
  refine peek_rule (readHost_eq (by dsimp only; omega)) ?_
  refine count_rule (host4_lt _) (h.rest hle hs) fun _ hrest => ?_
  refine lastString_rule hrest fun k _ hstr hs' => ?_
  have hsize := hrest.size
  dsimp only at hsize hs' ⊢
  exact returnSize_measures ⟨by dsimp only; omega, hs'⟩ ⟨hrest.within, hstr⟩

theorem configSize_measures (h : Region m 8 l) :
    Measures (configSize m) (fun _ => Strings m m.length (1 + host m 8 4) 17) ⟨8, l, 0⟩ := by
  have hin := h.inside
  refine struct_rule h fun hsize hle hs => ?_
  refine string_rule (h.rest hle hs) fun k hk ⟨p, hp, hpk⟩ hrest => ?_
  refine peek_rule (readHost_eq (by dsimp only; omega)) ?_
  refine ite_rule (fun _ => refused) fun _ => (wp_bind _ _).mpr ?_
  refine strings_end_rule hrest fun k' hs' hrest' => ?_
  have hfin := hrest'.inside
  have h0 := hrest'.nonneg
  dsimp only at hs' hpk hfin h0
  rw [add_comm]
  refine hrest'.returns ⟨p, hp, hp.lt_length, ?_⟩
  rw [hpk]
  exact hs'.mono (by omega)

theorem partsSize_measures (h : Region m 8 l) {payload x y : ℕ} (hx : x + 4 ≤ size) (hy : y + 4 ≤ size) :
    Measures (partsSize m size payload x y)
      (fun _ => Within m (8 + payload) (host m (8 + x) 4 + host m (8 + y) 4)) ⟨8, l, 0⟩ := by
  have hin := h.inside
  refine struct_rule h fun hsize hle hs => ?_
  refine peek_rule (readHost_eq (by dsimp only; omega)) (peek_rule (readHost_eq (by dsimp only; omega)) ?_)
  refine checkSize_rule (nat_range (host4_lt _)) (fun _ _ => ?_) fun _ => refused
  refine checkSize_rule (nat_range (host4_lt _)) (fun _ _ => ?_) fun _ => refused
  refine count_rule (host4_lt _) (h.rest hle hs) fun _ hrest => ?_
  refine count_rule (host4_lt _) hrest fun _ hrest' => ?_
  refine hrest'.returns ?_
  simp only [add_assoc] at hrest'
  rw [← add_assoc] at hrest'
  exact hrest'.within

theorem sfscacheInvalidateSize_measures (h : Region m 8 l) :
    Measures (sfscacheInvalidateSize m) (fun _ => InvalidateOk m) ⟨8, l, 0⟩ := by
  have hlim : sizeLimit = 50000 := rfl
  have hin := h.inside
  have hl := h.len
  refine struct_rule h fun hsize hle hs => get_rule (peek_rule (readHost_eq (by dsimp only; omega)) ?_)
  refine checkLen_rule (nat_range (host4_lt _)) (by dsimp only; omega) (fun _ hple _ => ?_) fun _ => refused
  dsimp only at hple ⊢
  refine checkString_rule (by omega) (fun _ _ hnul => ?_) fun _ => refused
  refine count_rule (host4_lt _) (h.rest hle hs) fun _ hrest => ?_
  have hnul' : HasNul m 20 (host m 12 4) := hnul
  have hpath : Within m 20 (host m 12 4) := hrest.within
  refine peek_rule (readHost_eq (by omega)) ?_
  refine ite_rule (fun hne => get_rule ?_) fun heq => ?_
  · have hfin := hrest.inside
    have hlen := hrest.len
    have h0 := hrest.nonneg
    have hsz := hrest.size
    refine checkLen_rule (nat_range (host4_lt _)) (by omega) (fun _ hkle _ => ?_) fun _ => refused
    refine lastString_rule hrest fun k _ hstr hs' => ?_
    have hkey : (host m 16 4 : ℤ) ≤ l - 12 - host m 12 4 := hkle
    have hkin : Within m (20 + host m 12 4) (host m 16 4) := by
      unfold Within
      omega
    dsimp only at hs' hsz ⊢
    exact returnSize_measures ⟨by dsimp only; omega, hs'⟩ ⟨⟨hpath, hnul'⟩, fun _ => ⟨hkin, hstr⟩⟩
  · refine hrest.returns ⟨⟨hpath, hnul'⟩, fun hne => absurd hne heq⟩

theorem upgradePart_rule {t : ℕ} (hc : Rest m c) (hn : n < 4294967296)
    (h : ∀ k : ℕ, c.size + k ≤ sizeLimit → (t = upgradeChunk → n ≠ 0 → StringIn m c.buf m.length) →
      wp Refused (f ()) Q { c with size := c.size + k }) : wp Refused (upgradePart m t n >>= f) Q c := by
  have hne : upgradeOk ≠ upgradeChunk ∧ upgradeNotify ≠ upgradeChunk := by decide
  have hstay : (t = upgradeChunk → n ≠ 0 → StringIn m c.buf m.length) → wp Refused (f ()) Q c := by
    intro hs
    simpa using h 0 (by simpa using hc.size.2) hs
  rw [wp_bind, upgradePart]
  refine ite_rule (fun hok => ?_) fun _ => ite_rule (fun hnotify => ?_) fun _ => ite_rule (fun _ => ?_) fun hother => ?_
  · refine ite_rule (fun _ => refused) fun _ => ?_
    rw [← wp_bind]
    exact addSize_rule (nat_range hn) hc.size
      (fun _ hs => h n hs fun hchunk => absurd (hok.symm.trans hchunk) hne.1) fun _ => refused
  · exact hstay fun hchunk => absurd (hnotify.symm.trans hchunk) hne.2
  · refine ite_rule (fun _ => ?_) fun h0 => hstay fun _ hn0 => absurd hn0 h0
    rw [← wp_bind]
    exact lastString_rule hc fun k _ hstr hs => h k hs fun _ _ => hstr
  · exact ite_rule (fun _ => refused) fun _ => hstay fun hchunk => absurd hchunk hother

theorem upgradeSize_measures (h : Region m 8 l) : Measures (upgradeSize m) (fun _ => UpgradeOk m) ⟨8, l, 0⟩ := by
  have hin := h.inside
  have hl := h.len
  refine struct_rule h fun hsize hle hs => get_rule ?_
  have hrest : Rest m ⟨16, l - 8, 8⟩ := h.rest hle hs
  refine peek_rule (readHost_eq (by dsimp only; omega)) (peek_rule (readHost_eq (by dsimp only; omega)) ?_)
  have htail : (host m 8 4 ≠ upgradeNotify → Within m 16 (host m 12 4)) →
      Measures (upgradePart m (host m 8 4) (host m 12 4) >>= fun _ => returnSize) (fun _ => UpgradeOk m)
        ⟨16, l - 8, 8⟩ := by
    intro hpart
    refine upgradePart_rule hrest (host4_lt _) fun k hs' hchunk => ?_
    have hsz := hrest.size
    dsimp only at hs' hsz
    exact returnSize_measures ⟨by dsimp only; omega, hs'⟩ ⟨hpart, hchunk⟩
  refine ite_rule (fun hn => ?_) fun hn => htail fun h => absurd h hn
  refine checkLen_rule (nat_range (host4_lt _)) (by dsimp only; omega) (fun _ hle' _ => htail fun _ => ?_)
    fun _ => refused
  have hle'' : (host m 12 4 : ℤ) ≤ l - 8 := hle'
  unfold Within
  omega

/-! ### Policy requests and replies with a short length -/

theorem castTo_region (h : (n : ℤ) ≤ c.len → wp Refused (f ()) Q c) :
    wp Refused (castTo n >>= f) Q c := castTo_rule h fun _ => refused

theorem verifyPolrequest_measures (h : Region m b l) (flags : ℕ) : Measures (verifyPolrequest m flags)
      (fun _ => flags % 2 = 1 → (u32 m b = 0x100 ∧ 12 ≤ l) ∨ (u32 m b = 0x101 ∧ 14 ≤ l)) ⟨b, l, 0⟩ := by
  have hin := h.inside
  rw [verifyPolrequest]
  refine ite_rule (fun heven => .inr ⟨by decide, by decide, fun hodd => ?_⟩) fun _ => ?_
  · omega
  refine castTo_region fun h4 => get_rule (peek_rule (readU32_eq (by dsimp only at h4 ⊢; omega)) ?_)
  refine ite_rule (fun h100 => castTo_region fun h12 => .inr ?_) fun _ => ite_rule
    (fun h101 => castTo_region fun h14 => .inr ?_) fun _ => refused
  · exact ⟨by decide, by decide, fun _ => .inl ⟨h100, h12⟩⟩
  · exact ⟨by decide, by decide, fun _ => .inr ⟨h101, h14⟩⟩

theorem polrequestSize_measures (h : Region m 8 l) :
    Measures (polrequestSize m) (fun _ => PolrequestOk m) ⟨8, l, 0⟩ := by
  have hlim : sizeLimit = 50000 := rfl
  have hin := h.inside
  have hl := h.len
  have hlt : host m 24 2 < 65536 := host2_lt _
  refine struct_rule h fun hsize hle hs => get_rule (peek_rule (readHost_eq (by dsimp only; omega)) ?_)
  dsimp only [Nat.reduceAdd]
  refine checkLen_rule (by omega) (by omega) (fun _ hle' _ => ?_) fun _ => refused
  refine addSize_rule (by omega) (by dsimp only; omega) (fun _ hs' => ?_) fun _ => refused
  refine peek_rule (readHost_eq (by omega)) (call_rule (verifyPolrequest_measures ⟨by omega, by omega⟩ _)
    fun r hr => ?_)
  refine ite_rule (fun _ => refused) fun hr0 => ?_
  have htype := (hr.resolve_left fun hneg => hr0 hneg.2).2.2
  refine returnSize_measures ⟨by dsimp only; omega, hs'⟩ ⟨by unfold Within; omega, fun hodd => ?_⟩
  exact (htype hodd).imp (fun h => ⟨h.1, by have := h.2; omega⟩) fun h => ⟨h.1, by have := h.2; omega⟩

theorem short_range (n : ℤ) : -32768 ≤ short n ∧ short n < 32768 := by
  rw [short, Int.bmod]
  split <;> omega

theorem csumreplySize_measures (h : Region m 8 l) :
    Measures (csumreplySize m) (fun _ => ShortPart m 24 26) ⟨8, l, 0⟩ := by
  have hin := h.inside
  have hrange := short_range (host m 24 2)
  have hlen : (24 : ℕ) ≤ l → ((readHost m (8 + 16) 2).map fun n => short n) = some (short (host m 24 2)) := by
    intro hle
    rw [readHost_eq (by omega)]
    rfl
  refine (lenCheckFunction_measures h hlen ⟨by omega, by omega⟩).mono fun r _ ⟨h0, hle⟩ => ⟨h0, ?_⟩
  unfold Within
  omega

/-- A reply with a length of 32 bits. -/
theorem replySize_measures (h : Region m 8 l) (hf : field + 4 ≤ 16) :
    Measures (lenCheckFunction 16 16 fun msg => (readHost m (msg + field) 4).map fun n => (n : ℤ))
      (fun _ => Within m 24 (host m (8 + field) 4)) ⟨8, l, 0⟩ := by
  have hin := h.inside
  have hlen : (16 : ℕ) ≤ l →
      ((readHost m (8 + field) 4).map fun n => (n : ℤ)) = some (host m (8 + field) 4 : ℤ) := by
    intro hle
    rw [readHost_eq (by omega)]
    rfl
  refine (lenCheckFunction_measures h hlen (nat_range (host4_lt _))).mono fun r _ ⟨h0, hle⟩ => ?_
  unfold Within
  omega

/-! ### Events -/

theorem pgOpenMessageSize_measures (h : Region m b l) :
    Measures (pgOpenMessageSize K m) (fun r => EventParts m K b (b + r.toNat) .playground) ⟨b, l, 0⟩ := by
  have hin := h.inside
  refine struct_rule h fun hsize hle hs => ?_
  refine string_rule (h.rest hle hs) fun k _ ⟨p, hp, hpk⟩ hrest => ?_
  refine peek_rule (readField_eq K.pgOp_in (by dsimp only; omega)) ?_
  dsimp only at hp hpk
  refine ite_rule (fun hopen => ?_) fun hopen => ite_rule (fun hrename => ?_) fun _ => refused
  · exact hrest.returns ⟨fun _ => ⟨p, hp, by dsimp only; omega, trivial⟩, fun hne => absurd hopen hne⟩
  · refine string_rule hrest fun k' _ ⟨p', hp', hpk'⟩ hrest' => ?_
    dsimp only at hp' hpk'
    rw [← hpk] at hp'
    exact hrest'.returns ⟨fun h => absurd h hopen, fun _ =>
      ⟨hrename, p, hp, by dsimp only; omega, p', hp', by dsimp only; omega, trivial⟩⟩

theorem pgFileMessageSize_measures (h : Region m b l) :
    Measures (pgFileMessageSize K m) (fun r => EventParts m K b (b + r.toNat) .playgroundfile) ⟨b, l, 0⟩ := by
  refine struct_rule h fun hsize hle hs => ?_
  refine string_rule (h.rest hle hs) fun k _ ⟨p, hp, hpk⟩ hrest => ?_
  refine string_rule hrest fun k' _ ⟨p', hp', hpk'⟩ hrest' => ?_
  dsimp only at hp hpk hp' hpk'
  rw [← hpk] at hp'
  exact hrest'.returns ⟨p, hp, by dsimp only; omega, p', hp', by dsimp only; omega, trivial⟩

/-- A string that is there or not stands in front of those that follow it. -/
theorem optional_rule {p : Prop} [Decidable p] {w : Walk Cur ℤ α} (hc : Rest m c)
    (h : ∀ k : ℕ, (∀ fin n, c.buf + k ≤ fin → Strings m fin n (c.buf + k) →
        Strings m fin ((if p then 1 else 0) + n) c.buf) →
      Rest m ⟨c.buf + k, c.len - k, c.size + k⟩ → wp Refused w Q ⟨c.buf + k, c.len - k, c.size + k⟩) :
    wp Refused (if p then shiftString m >>= fun _ => w else w) Q c := by
  refine ite_rule (fun hp => string_rule hc fun k _ ⟨q, hq, hqk⟩ hrest => h k (fun fin n hle hs => ?_) hrest)
    fun hp => ?_
  · rw [if_pos hp, add_comm]
    rw [← hqk] at hs hle
    exact ⟨q, hq, hle, hs⟩
  · have := h 0 (fun fin n _ hs => by simpa [hp] using hs) (by simpa using hc)
    simpa using this

theorem sfsPathMessageSize_measures (h : Region m b l) :
    Measures (sfsPathMessageSize K m) (fun r => EventParts m K b (b + r.toNat) .sfspath) ⟨b, l, 0⟩ := by
  have hin := h.inside
  refine struct_rule h fun hsize hle hs => ?_
  refine peek_rule (readField_eq K.pathlen0_in (by dsimp only; omega)) ?_
  refine optional_rule (h.rest hle hs) fun k hk hrest => ?_
  refine peek_rule (readField_eq K.pathlen1_in (by dsimp only; omega)) ?_
  refine optional_rule hrest fun k' hk' hrest' => hrest'.returns ?_
  dsimp only at hk hk' ⊢
  exact hk _ _ (by omega) (hk' _ 0 (by omega) trivial)

theorem anoubisStatMessageSize_measures (h : Region m b l) :
    Measures (anoubisStatMessageSize K) (fun r => EventParts m K b (b + r.toNat) .stat) ⟨b, l, 0⟩ := by
  have hlen := h.len
  refine castTo_region fun hsize => get_rule (.inr ?_)
  have hsize' : (K.anoubisStatMessage : ℤ) ≤ l := hsize
  refine ⟨Int.le_trans (Int.natCast_nonneg _) hsize', hlen, ?_⟩
  change b + K.anoubisStatMessage ≤ b + l.toNat
  omega

theorem eventSize_measures (h : Region m b l) (s : Source) :
    Measures (eventSize K m s) (fun r => EventParts m K b (b + r.toNat) s) ⟨b, l, 0⟩ := by
  have hfix : ∀ size : ℕ, Measures (checkFunction size) (fun r => b + size ≤ b + r.toNat) ⟨b, l, 0⟩ := by
    intro size
    refine (checkFunction_measures h size).mono fun r _ hr => ?_
    omega
  have hopen : Measures (stringCheckFunction m K.sfsOpenMessage K.pathhint)
      (fun r => StringIn m (b + K.pathhint) (b + r.toNat)) ⟨b, l, 0⟩ := by
    refine (stringCheckFunction_measures h _ _).mono fun r _ ⟨_, _, p, hp, hlt⟩ => ⟨p, hp, ?_⟩
    omega
  cases s with
  | alf => exact hfix _
  | sandbox => exact hopen
  | sfs => exact hopen
  | sfsexec => exact hopen
  | sfspath => exact sfsPathMessageSize_measures h
  | process => exact hfix _
  | stat => exact anoubisStatMessageSize_measures h
  | ipc => exact hfix _
  | playground => exact pgOpenMessageSize_measures h
  | playgroundproc => exact hfix _
  | playgroundfile => exact pgFileMessageSize_measures h

theorem EventParts.mono {s : Source} (h : EventParts m K b fin s) (hle : fin ≤ fin') : EventParts m K b fin' s := by
  cases s with
  | alf => exact Nat.le_trans h hle
  | sandbox => exact StringIn.mono h hle
  | sfs => exact StringIn.mono h hle
  | sfsexec => exact StringIn.mono h hle
  | sfspath => exact Strings.mono h hle
  | process => exact Nat.le_trans h hle
  | stat => exact Nat.le_trans h hle
  | ipc => exact Nat.le_trans h hle
  | playground => exact ⟨fun ho => (h.1 ho).mono hle, fun ho => ⟨(h.2 ho).1, (h.2 ho).2.mono hle⟩⟩
  | playgroundproc => exact Nat.le_trans h hle
  | playgroundfile => exact Strings.mono h hle

theorem eventdevHdrSize_measures (h : Region m b l) :
    Measures (eventdevHdrSize K m) (fun _ => EventOk m K b l.toNat) ⟨b, l, 0⟩ := by
  have hlim : sizeLimit = 50000 := rfl
  have hin := h.inside
  have hl := h.len
  refine castTo_region fun hsize => get_rule ?_
  refine peek_rule (readField_eq K.msgSize_in (by dsimp only at hsize ⊢; omega)) ?_
  dsimp only at hsize ⊢
  have hmsg : field m b K.msgSize < 4294967296 :=
    Nat.lt_of_lt_of_le (host_lt m _ _) (Nat.pow_le_pow_right (by decide) K.msgSize_width)
  refine checkLen_rule (nat_range hmsg) (by omega) (fun _ hle hlmax => ?_) fun _ => refused
  refine checkSize_rule (nat_range hmsg) (fun _ _ => ?_) fun _ => refused
  refine count_rule (by omega) ⟨hin, by dsimp only; omega, hl, size_zero⟩ fun _ hrest => ?_
  refine peek_rule (readField_eq K.msgSource_in (by omega)) ?_
  simp only [Int.zero_add] at hrest ⊢
  split
  · exact ⟨by decide, by decide⟩
  rename_i s hsource
  refine variant_rule (eventSize_measures ⟨hrest.inside, hrest.len⟩ s) hrest.size fun r hr0 hparts hs => get_rule ?_
  dsimp only at hs ⊢
  have hsz : 0 ≤ (K.eventdevHdr : ℤ) + r := by omega
  refine ite_rule (fun _ => ?_) fun hgt => ite_rule (fun _ => ?_) fun _ => Or.inr ⟨by omega, by omega, ?_⟩
  · refine (wp_leave _).mpr ?_
    unfold Refused
    split <;> omega
  · refine (wp_leave _).mpr ?_
    unfold Refused
    split <;> omega
  · refine ⟨by omega, by omega, s, hsource, hparts.mono ?_⟩
    dsimp only
    omega

/-! ### Questions -/

theorem eventaskFields_le : ∀ f ∈ eventaskFields, f ≤ 36 := by decide

theorem addOffsets_rule {fields : List ℕ} {Q : List (ℕ × ℕ) → Cur → Prop} (hf : ∀ f ∈ fields, b + f + 4 ≤ m.length)
    (h : Q (fields.map fun f => (host m (b + f) 2, host m (b + f + 2) 2)) c) :
    wp Refused (addOffsets m b fields) Q c := by
  induction fields generalizing Q with
  | nil => exact h
  | cons f fields ih =>
    have hin := hf f mem_cons_self
    refine peek_rule (readHost_eq (by omega)) (peek_rule (readHost_eq (by omega)) ?_)
    refine checkSize_rule (nat_range (by have := host2_lt (m := m) (b + f); omega)) (fun _ _ => ?_) fun _ => refused
    refine checkSize_rule (nat_range (by have := host2_lt (m := m) (b + f + 2); omega)) (fun _ _ => ?_)
      fun _ => refused
    exact (wp_bind _ _).mpr (ih (fun f' hf' => hf f' (mem_cons_of_mem _ hf')) h)

/-- The loop takes the largest end of a region. -/
theorem regionsTotal_rule {before offs : List (ℕ × ℕ)} {total : ℕ} {Q : ℕ → Cur → Prop}
    (h : ∀ total', total ≤ total' → (∀ r ∈ offs, r.2 ≠ 0 → r.1 + r.2 ≤ total') → Q total' c) :
    wp Refused (regionsTotal before offs total) Q c := by
  induction offs generalizing before total with
  | nil => exact h total (Nat.le_refl _) fun r hr => absurd hr not_mem_nil
  | cons r offs ih =>
    obtain ⟨s1, len⟩ := r
    refine ite_rule (fun h0 => ih fun total' hle hall => h total' hle fun r hr hne => ?_) fun hne =>
      ite_rule (fun _ => refused) fun _ => ih fun total' hle hall => h total' (by omega) fun r hr hne => ?_
    · rcases mem_cons.mp hr with rfl | hr
      · exact absurd h0 hne
      · exact hall r hr hne
    · rcases mem_cons.mp hr with rfl | hr
      · exact Nat.le_trans (Nat.le_max_right total (s1 + len)) hle
      · exact hall r hr hne

/-- A string in a region, where there is one. -/
theorem path_rule {w : Walk Cur ℤ α} (hin : n ≠ 0 → off + n ≤ m.length)
    (h : (n ≠ 0 → HasNul m off n) → wp Refused w Q c) :
    wp Refused (if n ≠ 0 then checkString m off n >>= fun _ => w else w) Q c := by
  refine ite_rule (fun hne => ?_) fun h0 => h fun hne => absurd hne h0
  have hin' := hin hne
  refine checkString_rule (by intro _; rw [Int.toNat_natCast]; exact hin') (fun _ _ hnul => h fun _ => hnul) fun _ => refused

theorem eventaskSize_measures (h : Region m 8 l) :
    Measures (eventaskSize K m) (fun _ => EventaskOk m K) ⟨8, l, 0⟩ := by
  have hlim : sizeLimit = 50000 := rfl
  have hin := h.inside
  have hl := h.len
  refine castTo_region fun hsize => get_rule ((wp_bind _ _).mpr ?_)
  dsimp only at hsize ⊢
  refine addOffsets_rule (fun f hf => by have := eventaskFields_le f hf; omega) ?_
  refine (wp_bind _ _).mpr (regionsTotal_rule fun total _ htotal => ?_)
  refine shiftField_rule (c := ⟨8, l, 0⟩) h.len size_zero (fun _ hle hs => ?_) fun _ => refused
  refine get_rule ?_
  dsimp only [Nat.reduceAdd] at hle hs ⊢
  refine ite_rule (fun _ => refused) fun hfit => ?_
  have hregions : ∀ f ∈ eventaskFields, host m (8 + f + 2) 2 ≠ 0 →
      Within m 48 (host m (8 + f) 2 + host m (8 + f + 2) 2) := by
    intro f hf hne
    have := htotal _ (mem_map_of_mem hf) hne
    dsimp only at this
    unfold Within
    omega
  have hin' : ∀ f ∈ eventaskFields, host m (8 + f + 2) 2 ≠ 0 →
      48 + host m (8 + f) 2 + host m (8 + f + 2) 2 ≤ m.length := by
    intro f hf hne
    have := hregions f hf hne
    unfold Within at this
    omega
  refine addSize_rule (by omega) (by dsimp only; omega) (fun _ hs' => ?_) fun _ => refused
  dsimp only at hs'
  refine peek_rule (readHost_eq (by omega)) (peek_rule (readHost_eq (by omega)) ?_)
  refine path_rule (hin' 24 (by decide)) fun hpath => ?_
  refine peek_rule (readHost_eq (by omega)) (peek_rule (readHost_eq (by omega)) ?_)
  refine path_rule (hin' 32 (by decide)) fun hctxpath => ?_
  refine peek_rule (readHost_eq (by omega)) (peek_rule (readHost_eq (by omega)) ?_)
  have hret : (host m 46 2 ≠ 0 → EventOk m K (48 + host m 44 2) (host m 46 2)) →
      Measures returnSize (fun _ => EventaskOk m K) ⟨48, l - 40, 0 + 40 + total⟩ := fun hevent =>
    returnSize_measures ⟨by dsimp only; omega, hs'⟩ ⟨hregions, hpath, hctxpath, hevent⟩
  refine ite_rule (fun hne => ?_) fun h0 => hret fun hne => absurd hne h0
  have hev : 48 + host m 44 2 + host m 46 2 ≤ m.length := hin' 36 (by decide) hne
  have hevlt := host2_lt (m := m) 46
  refine call_rule (eventdevHdrSize_measures ⟨by omega, by omega⟩) fun r hr => ?_
  refine checkSize_rule ?_ (fun h0 _ => hret fun _ => ?_) fun _ => refused
  · rcases hr with ⟨hlo, hhi⟩ | ⟨h0, hhi, -⟩
    · omega
    · omega
  · exact (hr.resolve_left fun hneg => Int.not_le.mpr hneg.2 h0).2.2

end Anoubis.Daemon.Sizes

import Anoubis.Daemon.KernelCompat

/-! How an event of an older kernel is copied.

    The message around an event is 8 bytes, and a copy of the event is put together from its parts. All accesses lie
    in the two messages:

        8        │ a │ msg_size │ b │ cookie │ rest │
                   │      │ new    │     │        ╲
        8        │ a │ msg_size │ b │ cookie │ 0 … │ rest │        -/

namespace Anoubis.Daemon.Compat

open Anoubis.Lib List
open Anoubis.Connection (Bytes)
open Anoubis.Daemon.Amsg (msgSizeLimit msgBufSize)
open Anoubis.Daemon.Scanner (hostBytes length_hostBytes host_field)
open Anoubis.Daemon.Sizes Option

variable {K : Kernel}

/-! ### Bytes -/

section Bytes

variable {m m' : Bytes} {off off' w n k e p lo : ℕ}

theorem host_congr (h : ∀ i < w, m'[off' + i]? = m[off + i]?) : host m' off' w = host m off w := by
  have heq : (m'.drop off').take w = (m.drop off).take w := by
    refine ext_getElem? fun i => ?_
    by_cases hi : i < w
    · rw [getElem?_take_of_lt hi, getElem?_take_of_lt hi, getElem?_drop, getElem?_drop, h i hi]
    · rw [getElem?_take_eq_none (not_lt.mp hi), getElem?_take_eq_none (not_lt.mp hi)]
  rw [host, host, heq]

/-- A number that fits into a field. -/
theorem mod_width (hn : n < 256 ^ w) : ((n : ℤ) % 256 ^ w).toNat = n := by
  have hlt : (n : ℤ) < 256 ^ w := by
    have hcast := Int.ofNat_lt.mpr hn
    rwa [Int.natCast_pow] at hcast
  rw [Int.emod_eq_of_lt (Int.natCast_nonneg n) hlt, Int.toNat_natCast]

theorem hostBytes_zero (w : ℕ) : hostBytes w 0 = List.replicate w 0 := by
  induction w with
  | zero => rfl
  | succ w ih =>
    rw [hostBytes, Nat.zero_div, ih, replicate_succ]
    rfl

theorem host_zero (h : ∀ i < w, m[off + i]? = some 0) : host m off w = 0 := by
  have heq : host m off w = host (List.replicate w 0) 0 w := by
    refine host_congr fun i hi => ?_
    rw [h i hi, zero_add, getElem?_replicate_of_lt hi]
  have hm : List.replicate w 0 = [] ++ (hostBytes w 0 ++ []) := by
    rw [hostBytes_zero, nil_append, append_nil]
  rw [heq]
  exact host_field hm rfl (Nat.pow_pos (by decide))

end Bytes

/-! ### Messages -/

/-- Memory from `msg_factory`. -/
def zeros (n : ℕ) : Bytes := List.replicate n 0

/-- A message around an event. -/
def container (size : ℕ) (data : Bytes) : Bytes := hostBytes 4 size ++ (hostBytes 4 eventdev ++ data)

section Messages

variable {data : Bytes} {size n i : ℕ}

theorem length_zeros (n : ℕ) : (zeros n).length = n := length_replicate

theorem zeros_add (n k : ℕ) : zeros (n + k) = zeros n ++ zeros k := replicate_add n k 0

theorem length_container (size : ℕ) (data : Bytes) : (container size data).length = 8 + data.length := by
  rw [container, length_append, length_append, length_hostBytes, length_hostBytes]
  omega

theorem container_append (size : ℕ) (data behind : Bytes) :
    container size data ++ behind = container size (data ++ behind) := by
  simp only [container, append_assoc]

theorem container_eq (size : ℕ) (data : Bytes) :
    ∃ before : Bytes, before.length = 8 ∧ container size data = before ++ data := by
  refine ⟨hostBytes 4 size ++ hostBytes 4 eventdev, ?_, (append_assoc _ _ _).symm⟩
  rw [length_append, length_hostBytes, length_hostBytes]

theorem getElem?_container (size : ℕ) (data : Bytes) (i : ℕ) : (container size data)[8 + i]? = data[i]? := by
  obtain ⟨before, hlen, heq⟩ := container_eq size data
  rw [heq, ← hlen, getElem?_append_right (Nat.le_add_right _ _), Nat.add_sub_cancel_left]

theorem drop_container (size : ℕ) (data : Bytes) (i : ℕ) : (container size data).drop (8 + i) = data.drop i := by
  refine ext_getElem? fun j => ?_
  rw [getElem?_drop, getElem?_drop, add_assoc, getElem?_container]

theorem field_container (size : ℕ) (data : Bytes) (b : ℕ) (f : Field) :
    field (container size data) (8 + b) f = field data b f := by
  refine host_congr fun i _ => ?_
  rw [add_assoc, add_assoc, getElem?_container, add_assoc]

theorem load_container {u piece v : Bytes} {o : ℕ} (size : ℕ) (hm : data = u ++ (piece ++ v)) (ho : u.length = o)
    (hn : piece.length = n) : load (container size data) (8 + o) n = some piece := by
  obtain ⟨head, hlen, heq⟩ := container_eq size data
  rw [heq, load_behind hlen, load_piece hm ho hn]

theorem store_container {u piece v bs : Bytes} {o : ℕ} (size : ℕ) (hm : data = u ++ (piece ++ v))
    (ho : u.length = o) (hn : piece.length = bs.length) :
    store (container size data) (8 + o) bs = some (container size (u ++ (bs ++ v))) := by
  rw [container, ← append_assoc,
    store_behind (by rw [length_append, length_hostBytes, length_hostBytes]), store_piece hm ho hn,
    map_some, append_assoc, container]

theorem readField_container (size : ℕ) (data : Bytes) (b : ℕ) (f : Field) :
    readField (container size data) (8 + b) f = readField data b f := by
  have hfield := field_container size data b f
  rw [field, field] at hfield
  rw [readField, readField, readHost, readHost, length_container, hfield]
  exact if_congr (by omega) rfl rfl

/-- A field of the old message, whatever stands behind it. -/
theorem readField_old {f : Field} (h : f.off + f.width ≤ data.length) (size : ℕ) (behind : Bytes) :
    readField (container size (data ++ behind)) 8 f = some (field data 0 f) := by
  have hfield : field (data ++ behind) 0 f = field data 0 f :=
    host_congr fun i hi => getElem?_append_left (by omega)
  rw [← hfield]
  exact (readField_container _ _ 0 f).trans (readField_eq h (by rw [length_append]; omega))

theorem readField_msgSource (h : K.eventdevHdr ≤ data.length) (size : ℕ) (behind : Bytes) :
    readField (container size (data ++ behind)) 8 K.msgSource = some (field data 0 K.msgSource) := by
  have hin := K.msgSource_in
  exact readField_old (by omega) size behind

theorem host_container (h : size < 4294967296) (data : Bytes) : host (container size data) 0 4 = size :=
  host_field (p := []) rfl rfl (by omega)

theorem readHost_container (h : size < 4294967296) (data : Bytes) :
    readHost (container size data) 0 4 = some size := by
  rw [readHost_eq (by rw [length_container]; omega), host_container h]

theorem mtype_container (size : ℕ) (data : Bytes) : host (container size data) 4 4 = eventdev :=
  host_field (p := hostBytes 4 size) rfl (length_hostBytes 4 size).symm (by decide)

theorem msgFactory_eq (h : n + 8 ≤ msgSizeLimit) :
    msgFactory eventdev (n : ℤ) = some (container (n + 8) (zeros n)) := by
  have hsize : ((n : ℤ) + 8).toNat = n + 8 := by omega
  rw [msgFactory, if_neg (by omega), hsize, Nat.add_sub_cancel]
  rfl

theorem getEvent_spec {old : Bytes} (h : getEvent K data = some (some old)) :
    K.eventdevHdr ≤ data.length ∧ field data 0 K.msgSize = data.length ∧ old = container (data.length + 8) data := by
  rw [getEvent] at h
  split at h
  · cases h
  rename_i hhdr
  have hread : readField data 0 K.msgSize = some (field data 0 K.msgSize) := readField_eq K.msgSize_in (by omega)
  rw [hread] at h
  simp only [bind_eq_bind, bind_some] at h
  split at h
  · cases h
  rename_i hsize
  rw [ne_eq, Decidable.not_not] at hsize
  rw [hsize] at h
  split at h
  · cases h
  rename_i m hm
  have hlimit : data.length + 8 ≤ msgSizeLimit := by
    rw [msgFactory] at hm
    split at hm
    · cases hm
    · omega
  rw [msgFactory_eq hlimit] at hm
  obtain ⟨m', hstore, hm'⟩ := bind_eq_some_iff.mp h
  have hzeros : zeros data.length = [] ++ (zeros data.length ++ []) := (append_nil _).symm
  rw [← some.inj hm, store_container (o := 0) _ hzeros rfl (length_zeros _)] at hstore
  refine ⟨by omega, hsize, ?_⟩
  rw [← some.inj (some.inj hm'), ← some.inj hstore, append_nil, nil_append]

end Messages

/-! ### Conversions -/

section Conversions

variable {data a x b cookie rest : Bytes} {C : Common K}

/-- An event in its parts: the header around `msg_size`, the cookie and the rest. -/
structure Parts (data a x b cookie rest : Bytes) (K : Kernel) : Prop where
  data : data = a ++ (x ++ (b ++ (cookie ++ rest)))
  before : a.length = K.msgSize.off
  msgSize : x.length = K.msgSize.width
  header : a.length + (x.length + b.length) = K.eventdevHdr
  cookie : cookie.length = commonSize10004 K

theorem exists_append {n : ℕ} {m : Bytes} (h : n ≤ m.length) : ∃ a b, m = a ++ b ∧ a.length = n :=
  ⟨m.take n, m.drop n, (take_append_drop n m).symm, length_take_of_le h⟩

theorem exists_parts (h : K.eventdevHdr + commonSize10004 K ≤ data.length) :
    ∃ a x b cookie rest, Parts data a x b cookie rest K := by
  have hin := K.msgSize_in
  obtain ⟨a, m, rfl, ha⟩ := exists_append (n := K.msgSize.off) (m := data) (by omega)
  rw [length_append] at h
  obtain ⟨x, m, rfl, hx⟩ := exists_append (n := K.msgSize.width) (m := m) (by omega)
  rw [length_append] at h
  obtain ⟨b, m, rfl, hb⟩ := exists_append (n := K.eventdevHdr - (a.length + x.length)) (m := m) (by omega)
  rw [length_append] at h
  obtain ⟨cookie, rest, rfl, hc⟩ := exists_append (n := commonSize10004 K) (m := m) (by omega)
  exact ⟨a, x, b, cookie, rest, rfl, ha, hx, by omega, hc⟩

/-- The event with its new size, and with zeros behind the cookie. -/
def converted (C : Common K) (data a b cookie rest : Bytes) : Bytes :=
  a ++ (hostBytes K.msgSize.width (data.length + (C.size - commonSize10004 K)) ++ (b ++ (cookie ++
    (zeros (C.size - commonSize10004 K) ++ rest))))

theorem Parts.length (h : Parts data a x b cookie rest K) :
    data.length = K.eventdevHdr + commonSize10004 K + rest.length := by
  have hhdr := h.header
  have hcookie := h.cookie
  rw [h.data]
  simp only [length_append]
  omega

theorem Common.cookie_le (C : Common K) : commonSize10004 K ≤ C.size :=
  le_trans C.pgid_behind (le_trans (Nat.le_add_right _ _) C.pgid_in)

section

variable (h : Parts data a x b cookie rest K)
include h

theorem length_converted :
    (converted C data a b cookie rest).length = data.length + (C.size - commonSize10004 K) := by
  have hsize := h.msgSize
  rw [converted, h.data]
  simp only [length_append, length_hostBytes, length_zeros]
  omega

theorem Parts.length_header : (a ++ (x ++ b)).length = K.eventdevHdr := by
  rw [length_append, length_append, h.header]

theorem Parts.data_eq : data = (a ++ (x ++ b)) ++ (cookie ++ rest) := by
  rw [h.data]
  simp only [append_assoc]

/-- What is read of the old message. -/
theorem load_parts (size : ℕ) (behind : Bytes) :
    load (container size (data ++ behind)) 8 K.eventdevHdr = some (a ++ (x ++ b)) ∧
      load (container size (data ++ behind)) (8 + K.eventdevHdr) (commonSize10004 K) = some cookie ∧
      load (container size (data ++ behind)) (8 + K.eventdevHdr + commonSize10004 K) rest.length = some rest := by
  have hdata : data ++ behind = (a ++ (x ++ b)) ++ (cookie ++ (rest ++ behind)) := by
    rw [h.data]
    simp only [append_assoc]
  refine ⟨load_container (o := 0) size (u := []) hdata rfl h.length_header,
    load_container size hdata h.length_header h.cookie, ?_⟩
  rw [add_assoc]
  refine load_container size (u := (a ++ (x ++ b)) ++ cookie) (v := behind) ?_ ?_ rfl
  · rw [hdata]
    simp only [append_assoc]
  · rw [length_append, h.length_header, h.cookie]

end

section Writes

variable {hdr : Bytes} {d : ℕ}

theorem store_header (hn : hdr.length = n) (size : ℕ) (tail : Bytes) :
    store (container size (zeros n ++ tail)) 8 hdr = some (container size (hdr ++ tail)) :=
  store_container (o := 0) size (u := []) rfl rfl (by rw [length_zeros, hn])

theorem store_cookie (C : Common K) (hhdr : hdr.length = K.eventdevHdr) (hcookie : cookie.length = n) (size : ℕ)
    (tail : Bytes) : store (container size (hdr ++ (zeros n ++ tail))) (8 + K.eventdevHdr + K.taskCookie.off) cookie =
      some (container size (hdr ++ (cookie ++ tail))) := by
  rw [C.taskCookie_first, add_zero]
  exact store_container size rfl hhdr (by rw [length_zeros, hcookie])

/-- The group is 0 in fresh memory already. -/
theorem writeField_pgid (C : Common K) (hhdr : hdr.length = K.eventdevHdr) (hcookie : cookie.length = commonSize10004 K)
    (hd : commonSize10004 K + d = C.size) (size : ℕ) (tail : Bytes) :
    writeField (container size (hdr ++ (cookie ++ (zeros d ++ tail)))) (8 + K.eventdevHdr) C.pgid 0 =
      some (container size (hdr ++ (cookie ++ (zeros d ++ tail)))) := by
  have hbehind : commonSize10004 K ≤ C.pgid.off := C.pgid_behind
  have hin := C.pgid_in
  obtain ⟨i, hi⟩ := Nat.exists_eq_add_of_le hbehind
  obtain ⟨j, hj⟩ : ∃ j, i + (C.pgid.width + j) = d := ⟨d - (i + C.pgid.width), by omega⟩
  have hpieces : hdr ++ (cookie ++ (zeros d ++ tail)) =
      (hdr ++ (cookie ++ zeros i)) ++ (zeros C.pgid.width ++ (zeros j ++ tail)) := by
    rw [← hj, zeros_add, zeros_add]
    simp only [append_assoc]
  have hzero : hostBytes C.pgid.width (0 % 256 ^ C.pgid.width : ℤ).toNat = zeros C.pgid.width := by
    rw [Int.zero_emod]
    exact hostBytes_zero C.pgid.width
  rw [writeField, hzero, hpieces, add_assoc]
  refine store_container _ rfl ?_ rfl
  rw [length_append, length_append, hhdr, hcookie, length_zeros, hi]

/-- The old size, as the new message has it before it is written. -/
theorem readField_msgSize (hhdr : hdr.length = K.eventdevHdr) (size : ℕ) (tail : Bytes) :
    readField (container size (hdr ++ tail)) 8 K.msgSize = some (field (hdr ++ tail) 0 K.msgSize) := by
  have hin := K.msgSize_in
  exact (readField_container _ _ 0 _).trans (readField_eq hin (by rw [length_append]; omega))

theorem field_msgSize (hhdr : hdr.length = K.eventdevHdr) (tail tail' : Bytes) :
    field (hdr ++ tail) 0 K.msgSize = field (hdr ++ tail') 0 K.msgSize := by
  have hin := K.msgSize_in
  refine host_congr fun i hi => ?_
  rw [getElem?_append_left (by omega), getElem?_append_left (by omega)]

theorem writeField_msgSize (h : Parts data a x b cookie rest K) (C : Common K) {n : ℕ} (hn : n < 256 ^ 2)
    (size : ℕ) (tail : Bytes) : writeField (container size ((a ++ (x ++ b)) ++ tail)) 8 K.msgSize n =
      some (container size (a ++ (hostBytes K.msgSize.width n ++ (b ++ tail)))) := by
  have hpow : 256 ^ 2 ≤ 256 ^ K.msgSize.width := Nat.pow_le_pow_right (by decide) C.msgSize_room
  rw [writeField, mod_width (by omega)]
  simp only [append_assoc]
  exact store_container _ rfl h.before (by rw [length_hostBytes, h.msgSize])

/-- The rest goes behind the new fields. -/
theorem store_rest (h : Parts data a x b cookie rest K) (hd : commonSize10004 K + d = C.size) (size n : ℕ) :
    store (container size (a ++ (hostBytes K.msgSize.width n ++ (b ++ (cookie ++ (zeros d ++ zeros rest.length))))))
        (8 + K.eventdevHdr + C.size) rest =
      some (container size (a ++ (hostBytes K.msgSize.width n ++ (b ++ (cookie ++ (zeros d ++ rest)))))) := by
  have hpieces : ∀ t, a ++ (hostBytes K.msgSize.width n ++ (b ++ (cookie ++ (zeros d ++ t)))) =
      (a ++ (hostBytes K.msgSize.width n ++ (b ++ (cookie ++ zeros d)))) ++ (t ++ []) := by
    intro t
    simp only [append_assoc, append_nil]
  have hheader := h.header
  have hmsgSize := h.msgSize
  have hcookie := h.cookie
  rw [hpieces, hpieces, add_assoc]
  refine store_container _ rfl ?_ (length_zeros _)
  simp only [length_append, length_hostBytes, length_zeros]
  omega

end Writes

section

variable (h : Parts data a x b cookie rest K)
include h

/-- `compat_common` on a message that is not longer than a buffer of the kernel. -/
theorem compatCommon_spec (hsize : field data 0 K.msgSize = data.length)
    (hlen : data.length ≤ 2 * msgBufSize) (behind : Bytes) :
    compatCommon K C (container (data.length + 8) data) behind =
      some (some (container (data.length + (C.size - commonSize10004 K) + 8)
        (converted C data a b cookie rest))) := by
  have hbuf : msgBufSize = 8192 := rfl
  have hlim : msgSizeLimit = 100000 := rfl
  have hlength := h.length
  have hsmall := C.size_le
  have hpost : (((data.length + 8 : ℕ) : ℤ) - 8 - K.eventdevHdr - commonSize10004 K).toNat = rest.length := by omega
  obtain ⟨d, hd⟩ := Nat.exists_eq_add_of_le C.cookie_le
  have hsub : C.size - commonSize10004 K = d := by omega
  generalize hN : K.eventdevHdr + C.size + rest.length = N
  have hNlen : N = data.length + d := by omega
  have hzeros : zeros N = zeros K.eventdevHdr ++ (zeros (commonSize10004 K) ++ (zeros d ++ zeros rest.length)) := by
    rw [← hN, hd, zeros_add, zeros_add, zeros_add]
    simp only [append_assoc]
  obtain ⟨hload₁, hload₂, hload₃⟩ := load_parts h (data.length + 8) behind
  have hfield : field ((a ++ (x ++ b)) ++ (cookie ++ (zeros d ++ zeros rest.length))) 0 K.msgSize = data.length := by
    rw [← hsize, field_msgSize h.length_header _ (cookie ++ rest), ← h.data_eq]
  have hroom : N < 256 ^ 2 := by omega
  have hvalue : (data.length + ((N + 8 : ℕ) - (data.length + 8 : ℕ)) : ℤ) = N := by omega
  have hread : ∀ n m, n ≤ 50000 → readHost (container (n + 8) m) 0 4 = some (n + 8) :=
    fun n m hn => readHost_container (by omega) m
  rw [compatCommon]
  dsimp only
  rw [container_append, hread _ _ (by omega)]
  simp only [bind_eq_bind, bind_some]
  rw [if_neg (by omega), hpost, hN, msgFactory_eq (by omega), hzeros]
  simp only [hload₁, hload₂, hload₃, store_header h.length_header, store_cookie C h.length_header h.cookie,
    writeField_pgid C h.length_header h.cookie hd.symm, readField_msgSize h.length_header, hfield, hread N _ (by omega),
    hvalue, writeField_msgSize h C hroom, store_rest h hd.symm, bind_some]
  rw [converted, hsub, ← hNlen]
  rfl

/-- The bytes of the header around `msg_size` stay where they are. -/
theorem getElem?_converted_header {i : ℕ} (hi : i < K.eventdevHdr)
    (hout : i < K.msgSize.off ∨ K.msgSize.off + K.msgSize.width ≤ i) :
    (converted C data a b cookie rest)[i]? = data[i]? := by
  have ha := h.before
  have hx := h.msgSize
  have hheader := h.header
  rcases hout with hlt | hge
  · rw [converted, h.data, getElem?_append_left (by omega), getElem?_append_left (by omega)]
  · obtain ⟨j, rfl⟩ : ∃ j, i = a.length + (x.length + j) := ⟨i - (a.length + x.length), by omega⟩
    have hmiddle : ∀ y t : Bytes, y.length = x.length →
        (a ++ (y ++ (b ++ t)))[a.length + (x.length + j)]? = b[j]? := by
      intro y t hy
      rw [getElem?_append_right (by omega), Nat.add_sub_cancel_left, ← hy,
        getElem?_append_right (by omega), Nat.add_sub_cancel_left, getElem?_append_left (by omega)]
    have hdata : data[a.length + (x.length + j)]? = b[j]? := by
      rw [h.data]
      exact hmiddle x _ rfl
    rw [hdata]
    exact hmiddle _ _ (by rw [length_hostBytes, hx])

theorem drop_converted_header : (converted C data a b cookie rest).drop K.eventdevHdr =
      cookie ++ (zeros (C.size - commonSize10004 K) ++ rest) := by
  have hx := h.msgSize
  have hpieces : converted C data a b cookie rest =
      (a ++ (hostBytes K.msgSize.width (data.length + (C.size - commonSize10004 K)) ++ b)) ++
        (cookie ++ (zeros (C.size - commonSize10004 K) ++ rest)) := by
    rw [converted]
    simp only [append_assoc]
  have hlen : (a ++ (hostBytes K.msgSize.width (data.length + (C.size - commonSize10004 K)) ++ b)).length =
      K.eventdevHdr := by
    rw [length_append, length_append, length_hostBytes, ← hx, h.header]
  rw [hpieces, ← hlen, drop_left]

theorem drop_data_header : data.drop K.eventdevHdr = cookie ++ rest := by
  have hpieces : data = (a ++ (x ++ b)) ++ (cookie ++ rest) := by
    rw [h.data]
    simp only [append_assoc]
  have hlen : (a ++ (x ++ b)).length = K.eventdevHdr := by
    rw [length_append, length_append, h.header]
  rw [hpieces, ← hlen, drop_left]

theorem field_converted_msgSize (hlen : data.length ≤ 2 * msgBufSize) :
    field (converted C data a b cookie rest) 0 K.msgSize = data.length + (C.size - commonSize10004 K) := by
  have hbuf : msgBufSize = 8192 := rfl
  have hsmall := C.size_le
  have hpow : 256 ^ 2 ≤ 256 ^ K.msgSize.width := Nat.pow_le_pow_right (by decide) C.msgSize_room
  exact host_field (p := a) rfl (by rw [zero_add, h.before]) (by omega)

theorem field_converted_msgSource :
    field (converted C data a b cookie rest) 0 K.msgSource = field data 0 K.msgSource := by
  have hin := K.msgSource_in
  refine host_congr fun i hi => getElem?_converted_header h (by omega) ?_
  rcases C.msgSource_apart with hbefore | hbehind
  · exact .inl (by omega)
  · exact .inr (by omega)

/-- The bytes behind the cookie. -/
theorem getElem?_converted_rest {i : ℕ} (hi : K.eventdevHdr + commonSize10004 K ≤ i) :
    (converted C data a b cookie rest)[i + (C.size - commonSize10004 K)]? = data[i]? := by
  have hcookie := h.cookie
  obtain ⟨j, rfl⟩ : ∃ j, i = K.eventdevHdr + (commonSize10004 K + j) :=
    ⟨i - (K.eventdevHdr + commonSize10004 K), by omega⟩
  have hidx : K.eventdevHdr + (commonSize10004 K + j) + (C.size - commonSize10004 K) =
      K.eventdevHdr + (commonSize10004 K + ((C.size - commonSize10004 K) + j)) := by omega
  have hnew : (converted C data a b cookie rest)[K.eventdevHdr + (cookie.length +
      ((zeros (C.size - commonSize10004 K)).length + j))]? = rest[j]? := by
    rw [← getElem?_drop, drop_converted_header h, getElem?_append_right (Nat.le_add_right _ _),
      Nat.add_sub_cancel_left, getElem?_append_right (Nat.le_add_right _ _), Nat.add_sub_cancel_left]
  have hold : data[K.eventdevHdr + (cookie.length + j)]? = rest[j]? := by
    rw [← getElem?_drop, drop_data_header h, getElem?_append_right (Nat.le_add_right _ _), Nat.add_sub_cancel_left]
  rw [hcookie] at hold
  rw [hcookie, length_zeros] at hnew
  rw [hidx, hnew, hold]

end

end Conversions

end Anoubis.Daemon.Compat

import Anoubis.Daemon.KernelCompatParts
import Anoubis.Daemon.SizesEvents

/-! Which events of older kernels are converted faithfully.

    The pgid is put into each event of the versions before 0x10005, and its sizes add up:

        │ msg_size │ … │ task_cookie │ rest │
        │ msg_size + 8 │ … │ task_cookie │ 0 │ rest │

    In version 0x10005 the path of an event on a playground file gets its second string, but the size of the message
    with its container is taken for that of the event: more bytes are copied than there are. -/

namespace Anoubis.Daemon.Compat

open Anoubis.Lib List
open Anoubis.Connection (Bytes)
open Anoubis.Daemon.Amsg (msgSizeLimit msgBufSize)
open Anoubis.Daemon.Scanner (hostBytes length_hostBytes host_field)
open Anoubis.Daemon.Sizes Option

variable {K : Kernel}

/-! ### The property -/

/-- ANOUBISCORE_PG_VERSION: the first version with playgrounds. -/
def pgVersion : ℕ := 0x10005

/-- The events that there are since this version. -/
def isPlayground : Source → Bool
  | .playground | .playgroundproc | .playgroundfile => true
  | _ => false

/-- How far the places behind `task_cookie` are in front of those in version 0x10006. -/
def shift (C : Common K) (version : ℕ) : ℕ := if version < pgVersion then C.size - commonSize10004 K else 0

/-- An event of a kernel of this version: the structure of its source is there, and its payload ends at most 7 bytes
    in front of its end. A playground file has one path. -/
structure WellFormed (C : Common K) (version : ℕ) (data : Bytes) (s : Source) : Prop where
  source : K.source (field data 0 K.msgSource) = some s
  playground : version < pgVersion → isPlayground s = false
  struct : K.eventdevHdr + structSize K s ≤ data.length + shift C version
  payload : ∃ e, EndsAt data K (shift C version) 1 K.eventdevHdr s e ∧ e ≤ data.length ∧ data.length ≤ e + 7

/-- The message `n` has what the event in the message `old` has. -/
structure Carries (C : Common K) (version : ℕ) (old n : Bytes) : Prop where
  size : host n 0 4 = n.length
  msgSize : n.length = 8 + field n 8 K.msgSize
  event : ∃ r, result (eventdevHdrSize K n) ⟨8, field n 8 K.msgSize, 0⟩ = some r ∧ 0 ≤ r
  message : accepted K n
  header : ∀ i < K.eventdevHdr, i < K.msgSize.off ∨ K.msgSize.off + K.msgSize.width ≤ i → n[8 + i]? = old[8 + i]?
  taskCookie : field n (8 + K.eventdevHdr) K.taskCookie = field old (8 + K.eventdevHdr) K.taskCookie
  pgid : version < pgVersion → field n (8 + K.eventdevHdr) C.pgid = 0
  payload : version < pgVersion →
    n.drop (8 + K.eventdevHdr + C.size) = old.drop (8 + K.eventdevHdr + commonSize10004 K)
  payload10005 : version = 0x10005 → K.source (field old 8 K.msgSource) ≠ some .playgroundfile →
    n.drop (8 + K.eventdevHdr) = old.drop (8 + K.eventdevHdr)
  secondPath : version = 0x10005 → K.source (field old 8 K.msgSource) = some .playgroundfile →
    ∃ p, FirstNul old (8 + K.eventdevHdr + K.pgFilePath) p ∧ (∀ i, 8 + K.eventdevHdr ≤ i → i ≤ p → n[i]? = old[i]?) ∧
      n[p + 1]? = some 0

/-- The conversion reads nothing behind the old message and writes nothing outside of the new one, and the new one has
    what the old one has. -/
def Faithful (C : Common K) (version : ℕ) (old : Bytes) : Prop :=
  ∃ n, (∀ behind, compatGetEvent K C old behind version = some (some n)) ∧ Carries C version old n

/-! ### Payloads -/

/-- The places in a payload that its end depends on. -/
def places (K : Kernel) : Source → List ℕ
  | .sandbox | .sfs | .sfsexec => [K.pathhint]
  | .sfspath => [K.pathlen0.off, K.pathlen1.off, K.paths]
  | .playground => [K.pgOp.off, K.pathbuf]
  | .playgroundfile => [K.pgFilePath]
  | _ => []

section Payloads

variable {m m' : Bytes} {off n k p d b e lo : ℕ} {s : Source}

theorem firstNul_move (hbytes : ∀ i, lo ≤ i → m'[i + k]? = m[i]?) (hlo : lo ≤ off) (h : FirstNul m off p) :
    FirstNul m' (off + k) (p + k) := by
  have hle := h.le
  refine ⟨by omega, ?_, fun q hq hqp => ?_⟩
  · rw [hbytes p (by omega)]
    exact h.nul
  · obtain ⟨i, rfl⟩ : ∃ i, q = i + k := ⟨q - k, by omega⟩
    rw [hbytes i (by omega)]
    exact h.first i (by omega) (by omega)

theorem stringsEnd_move (hbytes : ∀ i, lo ≤ i → m'[i + k]? = m[i]?) (hlo : lo ≤ off) (h : StringsEnd m n off e) :
    StringsEnd m' n (off + k) (e + k) := by
  induction n generalizing off with
  | zero =>
    obtain rfl : e = off := h
    rfl
  | succ n ih =>
    obtain ⟨p, hp, h⟩ := h
    have hle := hp.le
    refine ⟨p + k, firstNul_move hbytes hlo hp, ?_⟩
    have hrest := ih (by omega) h
    rwa [Nat.add_right_comm] at hrest

theorem field_move {f : Field} (hbytes : ∀ i, lo ≤ i → m'[i + (8 + d)]? = m[i]?) (hlo : d = 0 ∨ b ≤ lo)
    (hf : lo + d ≤ b + f.off) : field m' (8 + b) f = field m b (f.before d) := by
  refine host_congr fun i _ => ?_
  have hidx : 8 + b + f.off + i = b + (f.off - d) + i + (8 + d) := by omega
  rw [hidx]
  exact hbytes _ (by omega)

/-- A payload is moved, and the places behind `lo` by `d` bytes more than those in front of it. -/
theorem endsAt_move (hbytes : ∀ i, lo ≤ i → m'[i + (8 + d)]? = m[i]?) (hlo : d = 0 ∨ b ≤ lo)
    (hplaces : ∀ off ∈ places K s, lo + d ≤ b + off) (hs : s ≠ .playgroundfile) (hd : isPlayground s = true → d = 0)
    (h : EndsAt m K d 1 b s e) : EndsAt m' K 0 2 (8 + b) s (e + (8 + d)) := by
  have hstrings : ∀ {n off}, off ∈ places K s → StringsEnd m n (b + (off - d)) e →
      StringsEnd m' n (8 + b + off) (e + (8 + d)) := by
    intro n off hoff hends
    have hle := hplaces off hoff
    have hmove := stringsEnd_move hbytes (by omega) hends
    have hidx : b + (off - d) + (8 + d) = 8 + b + off := by omega
    rwa [hidx] at hmove
  cases s with
  | alf =>
    simp only [EndsAt] at h ⊢
    omega
  | sandbox => exact hstrings mem_cons_self h
  | sfs => exact hstrings mem_cons_self h
  | sfsexec => exact hstrings mem_cons_self h
  | sfspath =>
    have h0 := field_move hbytes hlo (f := K.pathlen0) (hplaces _ (by simp [places]))
    have h1 := field_move hbytes hlo (f := K.pathlen1) (hplaces _ (by simp [places]))
    have hfield : ∀ f : Field, field m' (8 + b) (f.before 0) = field m' (8 + b) f := fun _ => rfl
    rw [EndsAt, hfield, hfield, h0, h1]
    exact hstrings (by simp [places]) h
  | process =>
    simp only [EndsAt] at h ⊢
    omega
  | stat =>
    simp only [EndsAt] at h ⊢
    omega
  | ipc =>
    simp only [EndsAt] at h ⊢
    omega
  | playground =>
    obtain rfl := hd rfl
    have hop : field m' (8 + b) K.pgOp = field m b K.pgOp := field_move hbytes hlo (hplaces _ (by simp [places]))
    rw [EndsAt, hop]
    exact h.imp (fun h => ⟨h.1, hstrings (by simp [places]) h.2⟩) fun h =>
      ⟨h.1, h.2.1, hstrings (by simp [places]) h.2.2⟩
  | playgroundproc =>
    obtain rfl := hd rfl
    simp only [EndsAt] at h ⊢
    omega
  | playgroundfile => exact absurd rfl hs

end Payloads

/-! ### Results -/

section Results

variable {data a x b cookie rest : Bytes} {C : Common K} {version : ℕ} {s : Source}

theorem places_le (C : Common K) (hs : isPlayground s = false) : ∀ off ∈ places K s, C.size ≤ off := by
  have h0 := C.pathhint
  have h1 := C.pathlen0
  have h2 := C.pathlen1
  have h3 := C.paths
  cases s <;> simp_all [places, isPlayground]

theorem sfsPathMessage_pos (C : Common K) : 0 < K.sfsPathMessage := by
  have hin := K.pathlen0_in
  have hle := C.pathlen0
  have hpos := C.taskCookie_pos
  have hpgid := C.pgid_behind
  have hpgid' := C.pgid_in
  omega

theorem shift_old (hv : version < pgVersion) : shift C version = C.size - commonSize10004 K := if_pos hv

theorem eventEnds_converted (h : Parts data a x b cookie rest K) (hwf : WellFormed C version data s)
    (hv : version < pgVersion) (hlen : data.length ≤ 2 * msgBufSize) :
    EventEnds (container (data.length + (C.size - commonSize10004 K) + 8) (converted C data a b cookie rest)) K 8
      (data.length + (C.size - commonSize10004 K)) := by
  have hbuf : msgBufSize = 8192 := rfl
  have hsmall := C.size_le
  have hle := C.cookie_le
  have hlength := h.length
  have hplayground := hwf.playground hv
  have hstruct := hwf.struct
  obtain ⟨e, hends, he, hpad⟩ := hwf.payload
  rw [shift_old hv] at hends hstruct
  refine ⟨?_, by omega, by omega, ?_, s, e + (8 + (C.size - commonSize10004 K)), ?_, hstruct, ?_, by omega, by omega⟩
  · rw [length_container, length_converted h]
  · exact (field_container _ _ 0 _).trans (field_converted_msgSize h hlen)
  · have hsource := field_container (data.length + (C.size - commonSize10004 K) + 8)
      (converted C data a b cookie rest) 0 K.msgSource
    rw [hsource.trans (field_converted_msgSource h)]
    exact hwf.source
  · have hbytes : ∀ i, K.eventdevHdr + commonSize10004 K ≤ i →
        (container (data.length + (C.size - commonSize10004 K) + 8) (converted C data a b cookie rest))[
          i + (8 + (C.size - commonSize10004 K))]? = data[i]? := by
      intro i hi
      have hidx : i + (8 + (C.size - commonSize10004 K)) = 8 + (i + (C.size - commonSize10004 K)) := by omega
      rw [hidx, getElem?_container, getElem?_converted_rest h hi]
    refine endsAt_move hbytes (.inr (Nat.le_add_right _ _)) (fun off hoff => ?_) ?_ (fun hp => ?_) hends
    · have hoff' := places_le C hplayground off hoff
      omega
    · rintro rfl
      cases hplayground
    · rw [hplayground] at hp
      cases hp

/-- A message with an event that ends as it should, and no more. -/
theorem accepted_container {size : ℕ} (C : Common K) (hsize : size = data.length + 8)
    (h : EventEnds (container size data) K 8 data.length) :
    host (container size data) 0 4 = (container size data).length ∧
      (container size data).length = 8 + field (container size data) 8 K.msgSize ∧
      (∃ r, result (eventdevHdrSize K (container size data)) ⟨8, field (container size data) 8 K.msgSize, 0⟩ =
        some r ∧ 0 ≤ r) ∧ accepted K (container size data) := by
  have hlimit := h.limit
  have hlen := length_container size data
  refine ⟨?_, ?_, ?_, ?_⟩
  · rw [host_container (by omega), hlen, hsize, add_comm]
  · rw [hlen, h.size]
  · obtain ⟨r, hr, rfl⟩ := (eventdevHdrSize_yields h (sfsPathMessage_pos C)).result
    rw [h.size]
    exact ⟨data.length, hr, Int.natCast_nonneg _⟩
  · exact accepted_event hlen (mtype_container size data) h (sfsPathMessage_pos C)

theorem carries_converted (h : Parts data a x b cookie rest K) (hwf : WellFormed C version data s)
    (hv : version < pgVersion) (hlen : data.length ≤ 2 * msgBufSize) :
    Carries C version (container (data.length + 8) data)
      (container (data.length + (C.size - commonSize10004 K) + 8) (converted C data a b cookie rest)) := by
  have hends := eventEnds_converted h hwf hv hlen
  have hlength := length_converted (C := C) h
  rw [← hlength] at hends ⊢
  obtain ⟨hsize, hmsgSize, hevent, haccepted⟩ := accepted_container C rfl hends
  have hcookie := h.cookie
  have hpgid : commonSize10004 K ≤ C.pgid.off := C.pgid_behind
  have hpgid' := C.pgid_in
  have hpayload : ∀ j, (converted C data a b cookie rest)[K.eventdevHdr + j]? =
      (cookie ++ (zeros (C.size - commonSize10004 K) ++ rest))[j]? := by
    intro j
    rw [← getElem?_drop, drop_converted_header h]
  refine ⟨hsize, hmsgSize, hevent, haccepted, fun i hi hout => ?_, ?_, fun _ => ?_, fun _ => ?_, fun hv' => ?_,
    fun hv' => ?_⟩
  · rw [getElem?_container, getElem?_container, getElem?_converted_header h hi hout]
  · rw [field_container, field_container]
    refine host_congr fun i hi => ?_
    have hdata : data[K.eventdevHdr + i]? = (cookie ++ rest)[i]? := by
      rw [← getElem?_drop, drop_data_header h]
    have hi' : i < cookie.length := by rwa [hcookie]
    rw [C.taskCookie_first, add_zero, hpayload, hdata, getElem?_append_left hi', getElem?_append_left hi']
  · rw [field_container]
    refine host_zero fun i hi => ?_
    rw [add_assoc, hpayload, getElem?_append_right (by omega), getElem?_append_left
      (by rw [length_zeros]; omega)]
    exact getElem?_replicate_of_lt (by omega)
  · have hle := C.cookie_le
    have hnew : cookie.length + (zeros (C.size - commonSize10004 K)).length = C.size := by
      rw [hcookie, length_zeros]
      omega
    have hdrop : (cookie ++ (zeros (C.size - commonSize10004 K) ++ rest)).drop C.size = rest := by
      rw [← append_assoc]
      exact drop_left' (by rw [length_append, hnew])
    have hdrop' : (cookie ++ rest).drop (commonSize10004 K) = rest := drop_left' hcookie
    rw [add_assoc, add_assoc, drop_container, drop_container, ← drop_drop, ← drop_drop,
      drop_converted_header h, drop_data_header h, hdrop, hdrop']
  · rw [hv'] at hv
    exact absurd hv (by decide)
  · rw [hv'] at hv
    exact absurd hv (by decide)

/-- The cookie is there. -/
theorem cookie_fits {e base : ℕ} (hs : isPlayground s = false)
    (h : EndsAt data K (C.size - commonSize10004 K) 1 base s e) : base + commonSize10004 K ≤ e := by
  have hle := C.cookie_le
  have hplace : ∀ {n off : ℕ}, off ∈ places K s → StringsEnd data n (base + (off - (C.size - commonSize10004 K))) e →
      base + commonSize10004 K ≤ e := by
    intro n off hoff hends
    have hsize := places_le C hs off hoff
    have hend := hends.le
    omega
  have hfix : ∀ {size : ℕ}, C.size ≤ size → base + size ≤ e + (C.size - commonSize10004 K) →
      base + commonSize10004 K ≤ e := by
    intro size hsize hend
    omega
  cases s with
  | alf => exact hfix C.alfEvent (le_of_eq h.symm)
  | sandbox => exact hplace mem_cons_self h
  | sfs => exact hplace mem_cons_self h
  | sfsexec => exact hplace mem_cons_self h
  | sfspath => exact hplace (by simp [places]) h
  | process => exact hfix C.acProcessMessage (le_of_eq h.symm)
  | stat => exact hfix C.anoubisStatMessage h
  | ipc => exact hfix C.acIpcMessage (le_of_eq h.symm)
  | playground => cases hs
  | playgroundproc => cases hs
  | playgroundfile => cases hs

theorem faithful_common {old : Bytes} (hold : old = container (data.length + 8) data)
    (hsize : field data 0 K.msgSize = data.length) (hwf : WellFormed C version data s) (hv : version < pgVersion)
    (hlow : 0x10001 ≤ version) (hlen : data.length ≤ 2 * msgBufSize) : Faithful C version old := by
  have hpg : pgVersion = 0x10005 := rfl
  have hfits : K.eventdevHdr + commonSize10004 K ≤ data.length := by
    obtain ⟨e, hends, he, -⟩ := hwf.payload
    rw [shift_old hv] at hends
    exact le_trans (cookie_fits (hwf.playground hv) hends) he
  obtain ⟨a, x, b, cookie, rest, h⟩ := exists_parts hfits
  refine ⟨_, fun behind => ?_, hold ▸ carries_converted h hwf hv hlen⟩
  rw [hold, compatGetEvent, if_neg (by omega), if_pos (by omega)]
  exact compatCommon_spec h hsize hlen behind

theorem faithful_same {old : Bytes} (hold : old = container (data.length + 8) data)
    (hsize : field data 0 K.msgSize = data.length) (hhdr : K.eventdevHdr ≤ data.length)
    (hwf : WellFormed C 0x10005 data s) (hs : s ≠ .playgroundfile) (hlen : data.length ≤ 2 * msgBufSize) :
    Faithful C 0x10005 old := by
  have hbuf : msgBufSize = 8192 := rfl
  have hfile : K.source (field data 0 K.msgSource) ≠ some .playgroundfile := by
    rw [hwf.source]
    exact fun h => hs (some.inj h)
  obtain ⟨e, hends, he, hpad⟩ := hwf.payload
  have hevent : EventEnds old K 8 data.length := by
    rw [hold]
    refine ⟨?_, by omega, hhdr, ?_, s, e + (8 + 0), ?_, hwf.struct, ?_, by omega, by omega⟩
    · rw [length_container]
    · exact (field_container _ _ 0 _).trans hsize
    · have hsource := field_container (data.length + 8) data 0 K.msgSource
      rw [hsource]
      exact hwf.source
    · refine endsAt_move (d := 0) (fun i (_ : 0 ≤ i) => ?_) (.inl rfl) (fun _ _ => Nat.zero_le _) hs (fun _ => rfl)
        hends
      rw [add_zero, add_comm i 8, getElem?_container]
  rw [hold] at hevent
  obtain ⟨hsize', hmsgSize, hevent, haccepted⟩ := accepted_container C rfl hevent
  rw [← hold] at hsize' hmsgSize hevent haccepted
  refine ⟨old, fun behind => ?_, hsize', hmsgSize, hevent, haccepted, fun _ _ _ => rfl, rfl, fun hv => ?_,
    fun hv => ?_, fun _ _ => rfl, fun _ hfile' => ?_⟩
  · have hread := readHost_container (show data.length + 8 < 4294967296 by omega) (data ++ behind)
    have hsource := readField_msgSource hhdr (data.length + 8) behind
    rw [compatGetEvent, if_pos rfl, compatPgFile, hold]
    dsimp only
    rw [container_append, hread]
    simp only [bind_eq_bind, bind_some]
    rw [if_neg (by omega), hsource, bind_some, if_pos hfile]
    rfl
  · exact absurd hv (by decide)
  · exact absurd hv (by decide)
  · have hsame := field_container (data.length + 8) data 0 K.msgSource
    rw [hold, hsame] at hfile'
    exact absurd hfile' hfile

theorem not_faithful_pgFile {old : Bytes} (hold : old = container (data.length + 8) data)
    (hhdr : K.eventdevHdr ≤ data.length) (hsource : K.source (field data 0 K.msgSource) = some .playgroundfile)
    (hlen : data.length ≤ 2 * msgBufSize) : ¬ Faithful C 0x10005 old := by
  rintro ⟨n, hall, -⟩
  have hbuf : msgBufSize = 8192 := rfl
  have hread := readHost_container (show data.length + 8 < 4294967296 by omega) (data ++ [])
  have hsource' := readField_msgSource hhdr (data.length + 8) []
  -- The size of the message is that of the event and 8 bytes more.
  have hload : load (container (data.length + 8) (data ++ [])) 8 (data.length + 8) = none :=
    load_outside (by rw [length_container, append_nil]; omega)
  have hcall := hall []
  rw [compatGetEvent, if_pos rfl, compatPgFile, hold] at hcall
  dsimp only at hcall
  rw [container_append, hread] at hcall
  simp only [bind_eq_bind, bind_some] at hcall
  rw [if_neg (by omega), hsource', bind_some, if_neg (not_not.mpr hsource)] at hcall
  split at hcall
  · cases hcall
  · split at hcall
    · cases hcall
    · rw [hload] at hcall
      cases hcall

/-- An event of an older kernel is converted faithfully if and only if it is not one of version 0x10005 on a
    playground file. -/
theorem compat_get_event_iff {old : Bytes} (hlow : 0x10001 ≤ version) (hhigh : version ≤ 0x10005)
    (hread : getEvent K data = some (some old)) (hlen : data.length ≤ 2 * msgBufSize)
    (hwf : WellFormed C version data s) :
    Faithful C version old ↔ ¬ (version = 0x10005 ∧ s = .playgroundfile) := by
  have hpg : pgVersion = 0x10005 := rfl
  obtain ⟨hhdr, hsize, hold⟩ := getEvent_spec hread
  rcases Nat.lt_or_ge version pgVersion with hv | hv
  · refine iff_of_true (faithful_common hold hsize hwf hv hlow hlen) fun h => ?_
    omega
  · obtain rfl : version = 0x10005 := by omega
    by_cases hs : s = .playgroundfile
    · refine iff_of_false (not_faithful_pgFile hold hhdr ?_ hlen) (not_not.mpr ⟨rfl, hs⟩)
      rw [hwf.source, hs]
    · exact iff_of_true (faithful_same hold hsize hhdr hwf hs hlen) fun h => hs h.2

/-- Headers of a kernel whose payloads start with a cookie and a pgid. -/
def commonKernel : Kernel := { sampleKernel with
  anoubisStatMessage := 16
  pathOp := ⟨16, 4⟩
  pathlen0 := ⟨20, 4⟩
  pathlen1 := ⟨24, 4⟩
  paths := 28
  sfsPathMessage := 32
  taskCookie_in := by decide
  pathOp_in := by decide
  pathlen0_in := by decide
  pathlen1_in := by decide
  paths_in := by decide }

def sampleCommon : Common commonKernel where
  size := 16
  pgid := ⟨8, 8⟩
  taskCookie_first := rfl
  taskCookie_pos := by decide
  pgid_behind := by decide
  pgid_in := by decide
  size_le := by decide
  alfEvent := by decide
  acProcessMessage := by decide
  acIpcMessage := by decide
  anoubisStatMessage := by decide
  pathhint := by decide
  paths := by decide
  pathlen0 := by decide
  pathlen1 := by decide
  msgSource_apart := by decide
  msgSize_room := by decide

/-- A process event of version 0x10004. -/
def sampleProcess : Bytes := [48, 0, 40, 0] ++ List.replicate 20 0 ++ [9, 0, 0, 0, 0, 0, 0, 0] ++ List.replicate 16 7

theorem compat_get_event_process : Faithful sampleCommon 0x10004 (container 56 sampleProcess) ↔
    ¬ (0x10004 = 0x10005 ∧ Source.process = .playgroundfile) := by
  have hread : getEvent commonKernel sampleProcess = some (some (container 56 sampleProcess)) := by decide +kernel
  refine compat_get_event_iff (by decide) (by decide) hread (by decide) ⟨by decide, fun _ => rfl, by decide, 48, ?_⟩
  exact ⟨rfl, by decide, by decide⟩

/-- An event of version 0x10005 on the playground file "/a". -/
def samplePgFile : Bytes := [48, 0, 72, 0] ++ List.replicate 36 0 ++ [47, 97, 0] ++ List.replicate 5 0

/-- Eight bytes behind the old message are read for it. -/
theorem not_faithful_samplePgFile :
    getEvent commonKernel samplePgFile = some (some (container 56 samplePgFile)) ∧
      WellFormed sampleCommon 0x10005 samplePgFile .playgroundfile ∧
      ¬ Faithful sampleCommon 0x10005 (container 56 samplePgFile) := by
  have hread : getEvent commonKernel samplePgFile = some (some (container 56 samplePgFile)) := by decide +kernel
  have hsource : commonKernel.source (field samplePgFile 0 commonKernel.msgSource) = some .playgroundfile := by decide
  obtain ⟨hhdr, -, hold⟩ := getEvent_spec hread
  have hpath : FirstNul samplePgFile (commonKernel.eventdevHdr + commonKernel.pgFilePath) 42 := by
    refine ⟨by decide, by decide, fun q hq hlt => ?_⟩
    have hoff : commonKernel.eventdevHdr + commonKernel.pgFilePath = 40 := rfl
    obtain rfl | rfl : q = 40 ∨ q = 41 := by omega
    · decide
    · decide
  have hends : EndsAt samplePgFile commonKernel 0 1 commonKernel.eventdevHdr .playgroundfile 43 := ⟨42, hpath, rfl⟩
  refine ⟨hread, ⟨hsource, fun hv => absurd hv (by decide), by decide, 43, hends, by decide, by decide⟩, ?_⟩
  exact not_faithful_pgFile hold hhdr hsource (by decide)

end Results

end Anoubis.Daemon.Compat

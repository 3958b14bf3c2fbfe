import Anoubis.Lib.Run
import Mathlib.Data.List.Basic

/-! The buffer of a chat channel (`accbuffer.c`).

    Bytes go in at the end and come out at the front of one piece of memory. Where there is no room at the end,
    the bytes are moved to the start of the memory, or the memory grows.

        ┌──────────┬──────────────┬────────┐
        │ consumed │ bytes        │ free   │
        └──────────┴──────────────┴────────┘
        0          offset         end      alloc

    To a caller it is a queue of bytes, the list from `offset` to `end`. -/

namespace Anoubis.Chat

open Anoubis.Lib List

/-! ### The buffer -/

/-- ACHAT_BUFFER_DEFAULTSZ. -/
def bufferDefaultsz : ℕ := 0x1000

/-- ACHAT_BUFFER_MAX_CHUNK. -/
def bufferMaxChunk : ℕ := 0x100000

/-- ACHAT_BUFFER_MAX_LEN. -/
def bufferMaxLen : ℕ := 0xa00000

/-- ACHAT_BUFFER_ALLOCSZ. -/
def bufferAllocsz : ℕ := 0x8000

/-- UINT_MAX. -/
def uintMax : ℕ := 4294967295

/-- struct achat_buffer, with the memory that `buf` points to; `fin` is its field `end`. -/
structure AchatBuffer where
  buf : List UInt8
  alloc : ℕ
  offset : ℕ
  fin : ℕ
  deriving DecidableEq

/-- The values of achat_rc that occur here. -/
inductive Rc where
  | ok
  | error
  | invalparam
  deriving DecidableEq

/-- What `realloc` puts behind the old contents of the memory; `none` if it fails. -/
abbrev Realloc := Option (ℕ → UInt8)

/-- `acc_bufferinit`, where there is memory. -/
def accBufferinit : AchatBuffer := ⟨List.replicate bufferDefaultsz 0, bufferDefaultsz, 0, 0⟩

/-- `acc_bufferclear`. -/
def accBufferclear (b : AchatBuffer) : Rc × AchatBuffer := (.ok, { b with offset := 0, fin := 0 })

/-- `acc_bufferconsume`. -/
def accBufferconsume (b : AchatBuffer) (len : ℕ) : Rc × AchatBuffer :=
  if len > b.fin - b.offset then (.error, b)
  else
    let b := { b with offset := b.offset + len }
    (.ok, if b.offset = b.fin then { b with offset := 0, fin := 0 } else b)

/-- `acc_bufferlen`. -/
def accBufferlen (b : AchatBuffer) : ℕ := b.fin - b.offset

/-- `acc_buffertrunc`. -/
def accBuffertrunc (b : AchatBuffer) (len : ℕ) : Rc × AchatBuffer :=
  if len > accBufferlen b then (.error, b) else (.ok, { b with fin := b.fin - len })

/-- Bytes are written to some place in memory. -/
def overwrite (buf : List UInt8) (p : ℕ) (data : List UInt8) : List UInt8 :=
  buf.take p ++ data ++ buf.drop (p + data.length)

/-- `accbuffer_compact`. -/
def accbufferCompact (b : AchatBuffer) : Bool × AchatBuffer :=
  if b.offset > min b.alloc bufferMaxChunk then
    (true, ⟨overwrite b.buf 0 ((b.buf.drop b.offset).take (b.fin - b.offset)), b.alloc, 0, b.fin - b.offset⟩)
  else (false, b)

/-- `roundup`. -/
def roundup (x y : ℕ) : ℕ := (x + (y - 1)) / y * y

/-- The loop in `acc_bufferappend_space`: the place of the new space. It is `none` where there are more rounds. -/
def appendRestart (realloc : Realloc) (len : ℕ) : ℕ → AchatBuffer → Option (Option ℕ × AchatBuffer)
  | 0, _ => none
  | rounds + 1, b =>
    if b.fin + len < b.alloc then some (some b.fin, { b with fin := b.fin + len })
    else if (accbufferCompact b).1 then appendRestart realloc len rounds (accbufferCompact b).2
    else
      let newlen := roundup (b.alloc + len) bufferAllocsz
      if newlen = 0 ∨ newlen > uintMax ∨ newlen > bufferMaxLen then some (none, b)
      else match realloc with
        | none => some (none, b)
        | some fresh =>
          appendRestart realloc len rounds
            { b with buf := b.buf ++ (List.range (newlen - b.alloc)).map fresh, alloc := newlen }

/-- `acc_bufferappend_space`. -/
def accBufferappendSpace (realloc : Realloc) (b : AchatBuffer) (len : ℕ) : Option (Option ℕ × AchatBuffer) :=
  if len = 0 ∨ len > bufferMaxChunk then some (none, b)
  else
    let b := if b.offset = b.fin then { b with offset := 0, fin := 0 } else b
    appendRestart realloc len 3 b

/-- `acc_bufferappend`. -/
def accBufferappend (realloc : Realloc) (b : AchatBuffer) (data : List UInt8) : Option (Rc × AchatBuffer) :=
  if data = [] then some (.invalparam, b)
  else match accBufferappendSpace realloc b data.length with
    | none => none
    | some (none, b) => some (.error, b)
    | some (some p, b) => some (.ok, { b with buf := overwrite b.buf p data })

/-! ### Calls -/

inductive Op where
  | append (data : List UInt8) (realloc : Realloc)
  | appendSpace (len : ℕ) (realloc : Realloc)
  | consume (len : ℕ)
  | trunc (len : ℕ)
  | clear

/-- What a call returns: a code, or a pointer into the memory. -/
inductive Ret where
  | rc (rc : Rc)
  | space (p : Option ℕ)
  deriving DecidableEq

/-- A call; `none` if it does not return. -/
def call (b : AchatBuffer) : Op → Option (Ret × AchatBuffer)
  | .append data realloc => (accBufferappend realloc b data).map fun r => (.rc r.1, r.2)
  | .appendSpace len realloc => (accBufferappendSpace realloc b len).map fun r => (.space r.1, r.2)
  | .consume len => some (.rc (accBufferconsume b len).1, (accBufferconsume b len).2)
  | .trunc len => some (.rc (accBuffertrunc b len).1, (accBuffertrunc b len).2)
  | .clear => some (.rc (accBufferclear b).1, (accBufferclear b).2)

def step (b : AchatBuffer) (op : Op) : Option AchatBuffer := (call b op).map Prod.snd

/-! ### The queue -/

/-- The bytes in the buffer. -/
def AchatBuffer.bytes (b : AchatBuffer) : List UInt8 := (b.buf.drop b.offset).take (b.fin - b.offset)

/-- The bounds of the buffer; there is always room for one more byte. -/
structure Valid (b : AchatBuffer) : Prop where
  start : b.offset ≤ b.fin
  stop : b.fin < b.alloc
  mem : b.buf.length = b.alloc
  max : b.alloc ≤ bufferMaxLen

/-- What a call does to a queue of bytes. -/
inductive Acts : Op → Ret → List UInt8 → List UInt8 → Prop where
  | append (data : List UInt8) (realloc : Realloc) (q : List UInt8) : Acts (.append data realloc) (.rc .ok) q (q ++ data)
  | appendFails (data : List UInt8) (realloc : Realloc) (rc : Rc) (q : List UInt8) (h : rc ≠ .ok) :
      Acts (.append data realloc) (.rc rc) q q
  | space (len p : ℕ) (realloc : Realloc) (q data : List UInt8) (h : data.length = len) :
      Acts (.appendSpace len realloc) (.space (some p)) q (q ++ data)
  | spaceFails (len : ℕ) (realloc : Realloc) (q : List UInt8) : Acts (.appendSpace len realloc) (.space none) q q
  | consume (len : ℕ) (q : List UInt8) (h : len ≤ q.length) : Acts (.consume len) (.rc .ok) q (q.drop len)
  | consumeFails (len : ℕ) (q : List UInt8) (h : q.length < len) : Acts (.consume len) (.rc .error) q q
  | trunc (len : ℕ) (q : List UInt8) (h : len ≤ q.length) : Acts (.trunc len) (.rc .ok) q (q.take (q.length - len))
  | truncFails (len : ℕ) (q : List UInt8) (h : q.length < len) : Acts (.trunc len) (.rc .error) q q
  | clear (q : List UInt8) : Acts .clear (.rc .ok) q []

/-- A call returns, keeps the bounds and acts on the queue; new space stands behind the bytes. -/
def Refines (b : AchatBuffer) (op : Op) : Prop :=
  ∃ ret b', call b op = some (ret, b') ∧ Valid b' ∧ Acts op ret b.bytes b'.bytes ∧
    ∀ p, ret = .space (some p) → p = b'.offset + b.bytes.length

/-! ### One call -/

variable {b b' : AchatBuffer} {realloc : Realloc} {len rounds : ℕ} {data : List UInt8}

theorem Valid.length_bytes (h : Valid b) : b.bytes.length = b.fin - b.offset := by
  have := h.stop
  have := h.mem
  rw [AchatBuffer.bytes, length_take, length_drop]
  omega

theorem length_overwrite {buf : List UInt8} {p : ℕ} (h : p + data.length ≤ buf.length) :
    (overwrite buf p data).length = buf.length := by
  rw [overwrite, length_append, length_append, length_take, length_drop]
  omega

/-- New space behind the bytes `q`. -/
structure Space (q : List UInt8) (len p : ℕ) (b' : AchatBuffer) : Prop where
  valid : Valid b'
  behind : p = b'.offset + q.length
  stop : b'.fin = p + len
  keeps : (b'.buf.drop b'.offset).take q.length = q

/-- What the loop of `acc_bufferappend_space` ends with. -/
def SpaceOrNot (q : List UInt8) (len : ℕ) (r : Option (Option ℕ × AchatBuffer)) : Prop :=
  (∃ p b', r = some (some p, b') ∧ Space q len p b') ∨ ∃ b', r = some (none, b') ∧ Valid b' ∧ b'.bytes = q

theorem restart_fits (h : Valid b) (hfits : b.fin + len < b.alloc) :
    SpaceOrNot b.bytes len (appendRestart realloc len (rounds + 1) b) := by
  have hlen := h.length_bytes
  have hstart := h.start
  refine .inl ⟨b.fin, { b with fin := b.fin + len }, ?_, ?_⟩
  · rw [appendRestart, if_pos hfits]
  · refine ⟨⟨Nat.le_add_right_of_le hstart, hfits, h.mem, h.max⟩, ?_, rfl, ?_⟩
    · rw [hlen]
      exact (Nat.add_sub_of_le hstart).symm
    · rw [hlen]
      rfl

theorem le_roundup (x : ℕ) {y : ℕ} (hy : 0 < y) : x ≤ roundup x y := by
  have hdiv := Nat.div_add_mod (x + (y - 1)) y
  have hmod := Nat.mod_lt (x + (y - 1)) hy
  rw [roundup, Nat.mul_comm]
  omega

/-- More memory behind the old contents. -/
theorem Valid.grow (h : Valid b) {newlen : ℕ} (hnew : b.alloc ≤ newlen) (hmax : newlen ≤ bufferMaxLen) (fresh : ℕ → UInt8) :
    Valid { b with buf := b.buf ++ (List.range (newlen - b.alloc)).map fresh, alloc := newlen } ∧
      ({ b with buf := b.buf ++ (List.range (newlen - b.alloc)).map fresh, alloc := newlen } : AchatBuffer).bytes =
        b.bytes := by
  have hmem := h.mem
  have hstart := h.start
  have hstop := h.stop
  refine ⟨⟨hstart, Nat.lt_of_lt_of_le hstop hnew, ?_, hmax⟩, ?_⟩
  · simp only [length_append, length_map, length_range]
    omega
  · have hoff : b.offset ≤ b.buf.length := by omega
    have htake : b.fin - b.offset ≤ (b.buf.drop b.offset).length := by
      rw [length_drop]
      omega
    rw [AchatBuffer.bytes, AchatBuffer.bytes, drop_append_of_le_length hoff, take_append_of_le_length htake]

/-- Without room at the start the memory grows, and then there is space. -/
theorem restart_grow (h : Valid b) (hstay : (accbufferCompact b).1 = false) :
    SpaceOrNot b.bytes len (appendRestart realloc len (rounds + 2) b) := by
  by_cases hfits : b.fin + len < b.alloc
  · exact restart_fits h hfits
  rw [appendRestart, if_neg hfits, if_neg (by simp [hstay])]
  dsimp only
  split
  · exact .inr ⟨b, rfl, h, rfl⟩
  rename_i hmax
  have hmax : roundup (b.alloc + len) bufferAllocsz ≤ bufferMaxLen := Nat.not_lt.mp fun hbig => hmax (.inr (.inr hbig))
  cases realloc with
  | none => exact .inr ⟨b, rfl, h, rfl⟩
  | some fresh =>
    have hle := le_roundup (b.alloc + len) (y := bufferAllocsz) (by decide)
    obtain ⟨hvalid, hbytes⟩ := h.grow (Nat.le_of_add_right_le hle) hmax fresh
    rw [← hbytes]
    refine restart_fits hvalid ?_
    have := h.stop
    dsimp only
    omega

/-- The bytes at the start of the memory. -/
theorem Valid.compact (h : Valid b) : Valid (accbufferCompact b).2 ∧ (accbufferCompact b).2.bytes = b.bytes ∧
      ((accbufferCompact b).1 = true → (accbufferCompact (accbufferCompact b).2).1 = false) := by
  have hlen := h.length_bytes
  have hmem := h.mem
  have hstart := h.start
  have hstop := h.stop
  have hmoved : (b.buf.drop b.offset).take (b.fin - b.offset) = b.bytes := rfl
  rw [accbufferCompact]
  split
  · rw [hmoved]
    refine ⟨⟨Nat.zero_le _, ?_, ?_, h.max⟩, ?_, fun _ => ?_⟩
    · dsimp only
      omega
    · dsimp only
      rw [length_overwrite (by omega), hmem]
    · rw [AchatBuffer.bytes, overwrite]
      dsimp only
      rw [take_zero, nil_append, drop_zero, Nat.sub_zero, ← hlen, take_left]
    · rw [accbufferCompact, if_neg (by dsimp only; omega)]
  · exact ⟨h, rfl, fun hfalse => absurd hfalse Bool.false_ne_true⟩

theorem appendRestart_spec (h : Valid b) : SpaceOrNot b.bytes len (appendRestart realloc len 3 b) := by
  cases hmove : (accbufferCompact b).1 with
  | false => exact restart_grow h hmove
  | true =>
    by_cases hfits : b.fin + len < b.alloc
    · exact restart_fits h hfits
    obtain ⟨hvalid, hbytes, honce⟩ := h.compact
    rw [appendRestart, if_neg hfits, if_pos hmove, ← hbytes]
    exact restart_grow hvalid (honce hmove)

/-- An empty buffer is used from the start. -/
theorem Valid.reset (h : Valid b) : Valid (if b.offset = b.fin then { b with offset := 0, fin := 0 } else b) ∧
      (if b.offset = b.fin then { b with offset := 0, fin := 0 } else b).bytes = b.bytes := by
  split
  · rename_i heq
    have hstop := h.stop
    refine ⟨⟨Nat.le_refl 0, Nat.zero_lt_of_lt hstop, h.mem, h.max⟩, ?_⟩
    rw [AchatBuffer.bytes, AchatBuffer.bytes, heq, Nat.sub_self, Nat.sub_self, take_zero, take_zero]
  · exact ⟨h, rfl⟩

theorem appendSpace_spec (realloc : Realloc) (h : Valid b) (len : ℕ) :
    SpaceOrNot b.bytes len (accBufferappendSpace realloc b len) := by
  rw [accBufferappendSpace]
  split
  · exact .inr ⟨b, rfl, h, rfl⟩
  · obtain ⟨hvalid, hbytes⟩ := h.reset
    rw [← hbytes]
    exact appendRestart_spec hvalid

/-- Space is filled, by the buffer itself or by the caller. -/
theorem Space.fill {q : List UInt8} {p : ℕ} (h : Space q data.length p b') :
    Valid { b' with buf := overwrite b'.buf p data } ∧
      ({ b' with buf := overwrite b'.buf p data } : AchatBuffer).bytes = q ++ data := by
  have hmem := h.valid.mem
  have hstop := h.valid.stop
  have hstart := h.valid.start
  have hfin := h.stop
  have hp := h.behind
  refine ⟨⟨hstart, hstop, ?_, h.valid.max⟩, ?_⟩
  · dsimp only
    rw [length_overwrite (by omega), hmem]
  · have hsplit : b'.buf.take p = b'.buf.take b'.offset ++ q := by
      rw [hp, take_add, h.keeps]
    have hoff : (b'.buf.take b'.offset).length = b'.offset := length_take_of_le (by omega)
    have hdrop : (overwrite b'.buf p data).drop b'.offset = q ++ data ++ b'.buf.drop (p + data.length) := by
      rw [overwrite, hsplit, append_assoc, append_assoc, append_assoc]
      exact drop_left' hoff
    have hlen : b'.fin - b'.offset = (q ++ data).length := by
      rw [length_append]
      omega
    rw [AchatBuffer.bytes, hdrop, hlen, take_left]

/-- The space as it is. -/
theorem Space.bytes {q : List UInt8} {p : ℕ} (h : Space q len p b') : ∃ data, data.length = len ∧ b'.bytes = q ++ data := by
  have hmem := h.valid.mem
  have hstop := h.valid.stop
  have hfin := h.stop
  have hp := h.behind
  refine ⟨(b'.buf.drop p).take len, ?_, ?_⟩
  · rw [length_take, length_drop]
    omega
  · have hlen : b'.fin - b'.offset = q.length + len := by omega
    rw [AchatBuffer.bytes, hlen, take_add, h.keeps, drop_drop, ← hp]

theorem append_refines (h : Valid b) (data : List UInt8) (realloc : Realloc) : Refines b (.append data realloc) := by
  rw [Refines, call, accBufferappend]
  by_cases hdata : data = []
  · rw [if_pos hdata]
    exact ⟨.rc .invalparam, b, rfl, h, .appendFails data realloc _ _ (by decide), by simp⟩
  rw [if_neg hdata]
  rcases appendSpace_spec realloc h data.length with ⟨p, b', heq, hspace⟩ | ⟨b', heq, hvalid, hbytes⟩
  · obtain ⟨hvalid, hbytes⟩ := hspace.fill
    rw [heq]
    refine ⟨.rc .ok, _, rfl, hvalid, ?_, by simp⟩
    rw [hbytes]
    exact .append data realloc _
  · rw [heq]
    refine ⟨.rc .error, b', rfl, hvalid, ?_, by simp⟩
    rw [hbytes]
    exact .appendFails data realloc _ _ (by decide)

theorem space_refines (h : Valid b) (len : ℕ) (realloc : Realloc) : Refines b (.appendSpace len realloc) := by
  rw [Refines, call]
  rcases appendSpace_spec realloc h len with ⟨p, b', heq, hspace⟩ | ⟨b', heq, hvalid, hbytes⟩
  · obtain ⟨data, hdata, hbytes⟩ := hspace.bytes
    rw [heq]
    refine ⟨.space (some p), b', rfl, hspace.valid, ?_, fun p' hp' => ?_⟩
    · rw [hbytes]
      exact .space len p realloc _ data hdata
    · obtain rfl := Option.some.inj (Ret.space.inj hp')
      exact hspace.behind
  · rw [heq]
    refine ⟨.space none, b', rfl, hvalid, ?_, by simp⟩
    rw [hbytes]
    exact .spaceFails len realloc _

theorem consume_refines (h : Valid b) (len : ℕ) : Refines b (.consume len) := by
  have hlen := h.length_bytes
  have hstart := h.start
  have hstop := h.stop
  rw [Refines, call, accBufferconsume]
  by_cases hmany : len > b.fin - b.offset
  · rw [if_pos hmany]
    exact ⟨.rc .error, b, rfl, h, .consumeFails len _ (by omega), by simp⟩
  rw [if_neg hmany]
  have hvalid : Valid { b with offset := b.offset + len } := ⟨by dsimp only; omega, hstop, h.mem, h.max⟩
  have hbytes : ({ b with offset := b.offset + len } : AchatBuffer).bytes = b.bytes.drop len := by
    rw [AchatBuffer.bytes, AchatBuffer.bytes, drop_take, drop_drop, Nat.sub_add_eq]
  refine ⟨.rc .ok, _, rfl, hvalid.reset.1, ?_, by simp⟩
  dsimp only
  rw [hvalid.reset.2, hbytes]
  exact .consume len _ (by omega)

theorem trunc_refines (h : Valid b) (len : ℕ) : Refines b (.trunc len) := by
  have hlen := h.length_bytes
  have hstart := h.start
  have hstop := h.stop
  rw [Refines, call, accBuffertrunc, accBufferlen]
  by_cases hmany : len > b.fin - b.offset
  · rw [if_pos hmany]
    exact ⟨.rc .error, b, rfl, h, .truncFails len _ (by omega), by simp⟩
  rw [if_neg hmany]
  have hbytes : ({ b with fin := b.fin - len } : AchatBuffer).bytes = b.bytes.take (b.bytes.length - len) := by
    have hshort : b.fin - len - b.offset = b.bytes.length - len := by omega
    have hle : b.bytes.length - len ≤ b.fin - b.offset := by omega
    have htake : ({ b with fin := b.fin - len } : AchatBuffer).bytes =
        (b.buf.drop b.offset).take (b.fin - len - b.offset) := rfl
    rw [htake, hshort]
    generalize b.bytes.length - len = n at hle
    rw [AchatBuffer.bytes, take_take, Nat.min_eq_left hle]
  refine ⟨.rc .ok, _, rfl, ⟨by dsimp only; omega, by dsimp only; omega, h.mem, h.max⟩, ?_, by simp⟩
  dsimp only
  rw [hbytes]
  exact .trunc len _ (by omega)

theorem clear_refines (h : Valid b) : Refines b .clear := by
  have hstop := h.stop
  have hbytes : ({ b with offset := 0, fin := 0 } : AchatBuffer).bytes = [] := take_zero
  refine ⟨.rc .ok, _, rfl, ⟨Nat.le_refl 0, Nat.zero_lt_of_lt hstop, h.mem, h.max⟩, ?_, by simp⟩
  dsimp only [accBufferclear]
  rw [hbytes]
  exact .clear _

theorem call_refines (h : Valid b) (op : Op) : Refines b op := by
  cases op with
  | append data realloc => exact append_refines h data realloc
  | appendSpace len realloc => exact space_refines h len realloc
  | consume len => exact consume_refines h len
  | trunc len => exact trunc_refines h len
  | clear => exact clear_refines h

/-! ### All calls -/

theorem valid_init : Valid accBufferinit := ⟨Nat.le_refl 0, by decide, length_replicate, by decide⟩

theorem valid_step (h : Valid b) {op : Op} (hs : step b op = some b') : Valid b' := by
  obtain ⟨ret, b₁, hcall, hvalid, -⟩ := call_refines h op
  rw [step, hcall] at hs
  cases hs
  exact hvalid

/-- Whatever is called in whatever order, the buffer is a queue of bytes: every call returns, keeps the bounds, and
    acts on the bytes like its counterpart on a list, or leaves them as they are. -/
theorem buffer_is_queue (ops : List Op) : Along step (fun b op => Valid b ∧ Refines b op) accBufferinit ops :=
  Along.mono (I := Valid) (fun _ _ _ h hs => valid_step h hs) (fun _ op h _ => ⟨h, call_refines h op⟩) valid_init
    (along_of_forall (P := fun _ _ => True) (fun _ _ => trivial) accBufferinit ops)

end Anoubis.Chat

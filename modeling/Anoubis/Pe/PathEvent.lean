import Anoubis.Daemon.SizesRules

/-! Events on two paths, as the policy engine reads them (`pe.c`).

    The kernel reports links, renames and locks with one or two paths behind the structure, and their
    lengths in it. `pe_parse_path_event` compares these lengths with `msg_size` before it uses a path:

        │ eventdev_hdr │ sfs_path_message … │ path 0 … 0 │ path 1 … 0 │
                                            paths        paths + pathlen[0] -/

namespace Anoubis.PathEvent

open Anoubis.Lib Option
open Anoubis.Connection (Bytes)
open Anoubis.Daemon.Sizes

/-- struct pe_path_event. -/
structure Event where
  cookie : ℕ
  op : ℕ
  uid : ℕ
  path0 : Bytes
  path1 : Option Bytes
  deriving DecidableEq

/-- `strdup`; `none` is a read outside of the message. -/
def strdup (m : Bytes) (off : ℕ) : Option Bytes :=
  (scan m off (m.length + 1)).bind fun r => r.map fun p => (m.drop off).take (p - off)

/-- The byte at `off` is not NUL. -/
def notNul (m : Bytes) (off : ℕ) : Option Bool := m[off]?.map fun b => b != 0

variable (K : Kernel)

/-- The operations that `pe_parse_path_event` supports, with the paths that they need. -/
def opOk (op pathlen1 : ℕ) : Bool :=
  if op = K.pathOpLink ∨ op = K.pathOpRename then decide (pathlen1 ≠ 0)
  else if op = K.pathOpLock ∨ op = K.pathOpUnlock then decide (pathlen1 = 0)
  else false

/-- `pe_parse_path_event` for the header at `hdr`, where memory does not run out. -/
def peParsePathEvent (m : Bytes) (hdr : ℕ) : Option (Option Event) := do
  let kernmsg := hdr + K.eventdevHdr
  let msgSize ← readField m hdr K.msgSize
  if msgSize < K.eventdevHdr then return none
  let sfslen := msgSize - K.eventdevHdr
  if sfslen < K.sfsPathMessage then return none
  let pathlen0 ← readField m kernmsg K.pathlen0
  let pathlen1 ← readField m kernmsg K.pathlen1
  if sfslen < K.sfsPathMessage + pathlen0 + pathlen1 then return none
  let op ← readField m kernmsg K.pathOp
  if ! opOk K op pathlen1 then return none
  if pathlen0 = 0 then return none
  let paths := kernmsg + K.paths
  if ← notNul m (paths + pathlen0 - 1) then return none
  if pathlen1 ≠ 0 then
    if ← notNul m (paths + pathlen0 + pathlen1 - 1) then return none
  let cookie ← readField m kernmsg K.taskCookie
  let uid ← readField m hdr K.msgUid
  let path0 ← strdup m paths
  let path1 ← if pathlen1 ≠ 0 then (strdup m (paths + pathlen0)).map some else some none
  return some { cookie, op, uid, path0, path1 }

/-! ### What a path event relies on -/

section

variable {K} {m : Bytes} {hdr : ℕ}

theorem notNul_eq {off : ℕ} (h : off < m.length) : notNul m off = some (m[off] != 0) := by
  rw [notNul, List.getElem?_eq_getElem h]
  rfl

theorem strdup_eq {off n : ℕ} (h : HasNul m off n) : ∃ s, strdup m off = some s := by
  obtain ⟨p, hle, -, hp⟩ := h
  have hs : scan m off (m.length + 1) ≠ none := fun hs => (scan_fails hs).2.2 p hle hp
  obtain ⟨r, hr⟩ := ne_none_iff_exists'.mp hs
  cases r with
  | none =>
    obtain ⟨b, hb, h0⟩ := scan_none hr hle (by have := (List.getElem?_eq_some_iff.mp hp).1; omega)
    exact absurd (some.inj (hb.symm.trans hp)) h0
  | some q => exact ⟨_, by rw [strdup, hr]; rfl⟩

/-- The paths of the message at `kernmsg`, as their lengths declare them, end before `fin`. -/
structure Declared (K : Kernel) (m : Bytes) (kernmsg fin : ℕ) : Prop where
  inside : kernmsg + K.paths + field m kernmsg K.pathlen0 + field m kernmsg K.pathlen1 ≤ fin
  path0 : field m kernmsg K.pathlen0 ≠ 0 → HasNul m (kernmsg + K.paths) (field m kernmsg K.pathlen0)
  path1 : field m kernmsg K.pathlen1 ≠ 0 →
    HasNul m (kernmsg + K.paths + field m kernmsg K.pathlen0) (field m kernmsg K.pathlen1)

/-- The last byte of a part is NUL. -/
theorem hasNul_last {off n : ℕ} (hn : n ≠ 0) (h : off + n - 1 < m.length) (h0 : m[off + n - 1] = 0) :
    HasNul m off n :=
  ⟨off + n - 1, by omega, by omega, by rw [List.getElem?_eq_getElem h, h0]⟩

/-- `pe_parse_path_event` stays in the message, and it uses the paths only where their lengths fit. -/
theorem peParsePathEvent_spec (hh : hdr + K.eventdevHdr ≤ m.length) (hs : hdr + field m hdr K.msgSize ≤ m.length) :
    ∃ r, peParsePathEvent K m hdr = some r ∧
      (r ≠ none → Declared K m (hdr + K.eventdevHdr) (hdr + field m hdr K.msgSize)) := by
  have hno : ∃ r : Option Event, some none = some r ∧
      (r ≠ none → Declared K m (hdr + K.eventdevHdr) (hdr + field m hdr K.msgSize)) :=
    ⟨none, rfl, fun h => absurd rfl h⟩
  rw [peParsePathEvent, readField_eq K.msgSize_in hh]
  simp only [bind_eq_bind, bind_some, pure_def]
  by_cases hsize : field m hdr K.msgSize < K.eventdevHdr
  · rw [if_pos hsize]
    exact hno
  rw [if_neg hsize]
  by_cases hmsg : field m hdr K.msgSize - K.eventdevHdr < K.sfsPathMessage
  · rw [if_pos hmsg]
    exact hno
  rw [if_neg hmsg]
  have hin : hdr + K.eventdevHdr + K.sfsPathMessage ≤ m.length := by omega
  rw [readField_eq K.pathlen0_in hin, readField_eq K.pathlen1_in hin, readField_eq K.pathOp_in hin,
    readField_eq K.taskCookie_in hin, readField_eq K.msgUid_in hh]
  simp only [bind_some]
  have hpaths := K.paths_in
  set len0 := field m (hdr + K.eventdevHdr) K.pathlen0 with hlen0
  set len1 := field m (hdr + K.eventdevHdr) K.pathlen1 with hlen1
  by_cases hfit : field m hdr K.msgSize - K.eventdevHdr < K.sfsPathMessage + len0 + len1
  · rw [if_pos hfit]
    exact hno
  rw [if_neg hfit]
  by_cases hop : (!opOk K (field m (hdr + K.eventdevHdr) K.pathOp) len1) = true
  · rw [if_pos hop]
    exact hno
  rw [if_neg hop]
  by_cases hne0 : len0 = 0
  · rw [if_pos hne0]
    exact hno
  rw [if_neg hne0, notNul_eq (by omega)]
  simp only [bind_some]
  split
  · exact hno
  rename_i hnul0
  have hstr0 : HasNul m (hdr + K.eventdevHdr + K.paths) len0 :=
    hasNul_last hne0 (by omega) (by simpa using hnul0)
  obtain ⟨path0, hdup0⟩ := strdup_eq hstr0
  rw [hdup0]
  by_cases hne1 : len1 = 0
  · simp only [hne1]
    exact ⟨_, rfl, fun _ => ⟨by omega, fun _ => hstr0, fun h => absurd hne1 h⟩⟩
  · rw [notNul_eq (by omega)]
    simp only [if_pos hne1, bind_some]
    split
    · exact hno
    rename_i hnul1
    have hstr1 : HasNul m (hdr + K.eventdevHdr + K.paths + len0) len1 :=
      hasNul_last hne1 (by omega) (by simpa using hnul1)
    obtain ⟨path1, hdup1⟩ := strdup_eq hstr1
    rw [hdup1]
    exact ⟨_, rfl, fun _ => ⟨by omega, fun _ => hstr0, fun _ => hstr1⟩⟩

end

end Anoubis.PathEvent

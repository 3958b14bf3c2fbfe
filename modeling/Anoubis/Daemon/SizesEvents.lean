import Anoubis.Daemon.SizesMsg

/-! Events that are accepted.

    The size functions refuse what does not fit. They accept an event whose payload ends in the event, with at most
    8 bytes of padding behind it, and return the size that its header gives.

        │ header │ structure, strings … 0 │ padding │
        hdr                               e         hdr + msg_size -/

namespace Anoubis.Daemon.Sizes

open Anoubis.Lib
open Anoubis.Connection (Bytes)
open Anoubis.MsgVerify (int)

attribute [local irreducible] int

variable {α : Type} {m m' : Bytes} {K : Kernel} {Q : α → Cur → Prop} {c : Cur} {b n off e p x d : ℕ} {l : ℤ}
  {R : ℤ → Prop} {s : Source}

/-! ### Payloads -/

/-- So many strings, one behind the other, end at `e`. -/
def StringsEnd (m : Bytes) : ℕ → ℕ → ℕ → Prop
  | 0, off, e => e = off
  | n + 1, off, e => ∃ p, FirstNul m off p ∧ StringsEnd m n (p + 1) e

/-- The size of the structure at the start of a payload. -/
def structSize (K : Kernel) : Source → ℕ
  | .alf => K.alfEvent
  | .sandbox | .sfs | .sfsexec => K.sfsOpenMessage
  | .sfspath => K.sfsPathMessage
  | .process => K.acProcessMessage
  | .stat => K.anoubisStatMessage
  | .ipc => K.acIpcMessage
  | .playground => K.pgOpenMessage
  | .playgroundproc => K.pgProcMessage
  | .playgroundfile => K.pgFileMessage

/-- A field that stands `d` bytes in front of its place. -/
def Field.before (f : Field) (d : ℕ) : Field := { f with off := f.off - d }

/-- The payload at `b` ends at `e`. All places behind its first field are `d` bytes in front of those in the
    structures, and there are so many paths in the event of a playground file. -/
def EndsAt (m : Bytes) (K : Kernel) (d pgPaths b : ℕ) : Source → ℕ → Prop
  | .alf, e => e + d = b + K.alfEvent
  | .sandbox, e | .sfs, e | .sfsexec, e => StringsEnd m 1 (b + (K.pathhint - d)) e
  | .sfspath, e => StringsEnd m
    ((if field m b (K.pathlen0.before d) ≠ 0 then 1 else 0) + if field m b (K.pathlen1.before d) ≠ 0 then 1 else 0)
    (b + (K.paths - d)) e
  | .process, e => e + d = b + K.acProcessMessage
  | .stat, e => b + K.anoubisStatMessage ≤ e + d
  | .ipc, e => e + d = b + K.acIpcMessage
  | .playground, e =>
    (field m b K.pgOp = K.opOpen ∧ StringsEnd m 1 (b + K.pathbuf) e) ∨
      (field m b K.pgOp ≠ K.opOpen ∧ field m b K.pgOp = K.opRename ∧ StringsEnd m 2 (b + K.pathbuf) e)
  | .playgroundproc, e => e = b + K.pgProcMessage
  | .playgroundfile, e => StringsEnd m pgPaths (b + K.pgFilePath) e

theorem StringsEnd.le (h : StringsEnd m n off e) : off + n ≤ e := by
  induction n generalizing off with
  | zero => exact Nat.le_of_eq h.symm
  | succ n ih =>
    obtain ⟨p, hp, h⟩ := h
    have hle := hp.le
    have hrest := ih h
    omega

theorem EndsAt.le {pgPaths : ℕ} (h : EndsAt m K 0 pgPaths b s e) : b ≤ e := by
  cases s with
  | alf => exact Nat.le_trans (Nat.le_add_right _ _) (Nat.le_of_eq h.symm)
  | sandbox => exact Nat.le_trans (by omega) (StringsEnd.le h)
  | sfs => exact Nat.le_trans (by omega) (StringsEnd.le h)
  | sfsexec => exact Nat.le_trans (by omega) (StringsEnd.le h)
  | sfspath => exact Nat.le_trans (by omega) (StringsEnd.le h)
  | process => exact Nat.le_trans (Nat.le_add_right _ _) (Nat.le_of_eq h.symm)
  | stat => exact Nat.le_trans (Nat.le_add_right _ _) h
  | ipc => exact Nat.le_trans (Nat.le_add_right _ _) (Nat.le_of_eq h.symm)
  | playground =>
    rcases h with ⟨-, h⟩ | ⟨-, -, h⟩
    · exact Nat.le_trans (by omega) h.le
    · exact Nat.le_trans (by omega) h.le
  | playgroundproc => exact Nat.le_trans (Nat.le_add_right _ _) (Nat.le_of_eq h.symm)
  | playgroundfile => exact Nat.le_trans (by omega) (StringsEnd.le h)

/-! ### Success -/

/-- The function ends with a size of which `R` holds. -/
def Yields (w : Walk Cur ℤ ℤ) (R : ℤ → Prop) (c : Cur) : Prop := wp (fun _ => False) w (fun r _ => R r) c

variable {w : Walk Cur ℤ ℤ} {size : ℕ} {f : Unit → Walk Cur ℤ α}

theorem Yields.result (h : Yields w R c) : ∃ r, result w c = some r ∧ R r := by
  refine result_of_wp ?_
  unfold Yields wp at h
  unfold wp
  split at h
  · exact h
  · exact h.elim
  · exact h

/-- The function has got to `x` in its buffer `b … b + l`. -/
def Cur.at (b : ℕ) (l : ℤ) (x : ℕ) : Cur := ⟨x, b + l - x, x - b⟩

theorem struct_yields {off : ℕ} {f : Cur → Unit → Walk Cur ℤ α} (hsize : (size : ℤ) ≤ l) (hoff : (off : ℤ) ≤ l)
    (hpos : 0 < l) (hl : l < sizeLimit) (hf : wp (fun _ => False) (f ⟨b, l, 0⟩ ()) Q (Cur.at b l (b + off))) :
    wp (fun _ => False) (castTo size >>= fun _ => get >>= fun msg => shiftField msg.buf off >>= f msg) Q
      ⟨b, l, 0⟩ := by
  have hlim : sizeLimit = 50000 := rfl
  refine castTo_rule (fun _ => get_rule ?_) fun hbad => hbad hsize
  refine shiftField_rule (by dsimp only; omega) size_zero (fun _ _ _ => ?_) fun hbad => hbad ?_
  · have hcur : Cur.at b l (b + off) = ⟨b + off, l - off, 0 + off⟩ := by
      simp only [Cur.at, Cur.mk.injEq, true_and]
      omega
    rwa [← hcur]
  · dsimp only
    omega

theorem string_yields (hx : b ≤ x) (hp : FirstNul m x p) (hlt : (p : ℤ) + 1 ≤ b + l) (hin : b + l ≤ m.length)
    (hl : l < sizeLimit) (hf : wp (fun _ => False) (f ()) Q (Cur.at b l (p + 1))) :
    wp (fun _ => False) (shiftString m >>= f) Q (Cur.at b l x) := by
  have hlim : sizeLimit = 50000 := rfl
  have hle := hp.le
  refine shiftString_rule ?_ ?_ (fun p' hp' _ _ => ?_) fun hbad => hbad ⟨?_, p, hp, ?_, ?_⟩
  · dsimp only [Cur.at]
    omega
  · dsimp only [Cur.at]
    omega
  · obtain rfl : p' = p := hp'.unique hp
    have hcur : Cur.at b l (p' + 1) =
        ⟨p' + 1, (b + l - x : ℤ) - (p' - x + 1 : ℕ), (x - b : ℤ) + (p' - x + 1 : ℕ)⟩ := by
      simp only [Cur.at, Cur.mk.injEq, true_and]
      omega
    dsimp only [Cur.at] at hcur ⊢
    rwa [← hcur]
  · dsimp only [Cur.at]
    omega
  · dsimp only [Cur.at]
    omega
  · dsimp only [Cur.at]
    omega

theorem returnSize_yields (hx : b ≤ x) (hle : (x : ℤ) ≤ b + l) (hl : l < sizeLimit) (hR : R (x - b)) :
    Yields returnSize R (Cur.at b l x) := by
  have hlim : sizeLimit = 50000 := rfl
  refine returnSize_rule ?_ (fun _ _ => hR) fun hbad => hbad ?_
  · dsimp only [Cur.at]
    omega
  · dsimp only [Cur.at]
    omega

/-! ### Payloads are measured -/

/-- The size takes at least the payload, and fits into the buffer. -/
def Covers (b e : ℕ) (l r : ℤ) : Prop := e ≤ b + r ∧ r ≤ l

theorem covers_at (hle : (x : ℤ) ≤ b + l) : Covers b x l (x - b) := by
  unfold Covers
  omega

theorem checkFunction_yields (h : e = b + size) (he : (e : ℤ) ≤ b + l) :
    Yields (checkFunction size) (Covers b e l) ⟨b, l, 0⟩ := by
  refine get_rule (ite_rule (fun hbad => ?_) fun hle => ?_)
  · dsimp only at hbad
    omega
  · refine (wp_pure _).mpr ?_
    unfold Covers
    omega

theorem stringCheckFunction_yields {field : ℕ} (hends : StringsEnd m 1 (b + field) e) (hsize : (size : ℤ) ≤ l)
    (he : (e : ℤ) ≤ b + l) (hin : b + l ≤ m.length) (hl : l < sizeLimit) :
    Yields (stringCheckFunction m size field) (Covers b e l) ⟨b, l, 0⟩ := by
  have hend := hends.le
  obtain ⟨p, hp, rfl⟩ := hends
  have hle := hp.le
  refine struct_yields hsize (by omega) (by omega) hl ?_
  refine string_yields (by omega) hp (by omega) hin hl ?_
  exact returnSize_yields (by omega) he hl (covers_at he)

theorem pgFileMessageSize_yields (hends : StringsEnd m 2 (b + K.pgFilePath) e) (hsize : (K.pgFileMessage : ℤ) ≤ l)
    (he : (e : ℤ) ≤ b + l) (hin : b + l ≤ m.length) (hl : l < sizeLimit) :
    Yields (pgFileMessageSize K m) (Covers b e l) ⟨b, l, 0⟩ := by
  have hend := hends.le
  obtain ⟨p, hp, p', hp', rfl⟩ := hends
  have hle := hp.le
  have hle' := hp'.le
  refine struct_yields hsize (by omega) (by omega) hl ?_
  refine string_yields (by omega) hp (by omega) hin hl ?_
  refine string_yields (by omega) hp' (by omega) hin hl ?_
  exact returnSize_yields (by omega) he hl (covers_at he)

theorem pgOpenMessageSize_yields (hends : EndsAt m K 0 2 b .playground e) (hsize : (K.pgOpenMessage : ℤ) ≤ l)
    (he : (e : ℤ) ≤ b + l) (hin : b + l ≤ m.length) (hl : l < sizeLimit) :
    Yields (pgOpenMessageSize K m) (Covers b e l) ⟨b, l, 0⟩ := by
  have hop : readField m b K.pgOp = some (field m b K.pgOp) := readField_eq K.pgOp_in (by omega)
  rcases hends with ⟨hopen, p, hp, rfl⟩ | ⟨hopen, hrename, p, hp, p', hp', rfl⟩
  · have hle := hp.le
    refine struct_yields hsize (by omega) (by omega) hl ?_
    refine string_yields (by omega) hp (by omega) hin hl (peek_rule hop ?_)
    rw [if_pos hopen]
    exact returnSize_yields (by omega) he hl (covers_at he)
  · have hle := hp.le
    have hle' := hp'.le
    refine struct_yields hsize (by omega) (by omega) hl ?_
    refine string_yields (by omega) hp (by omega) hin hl (peek_rule hop ?_)
    rw [if_neg hopen, if_pos hrename]
    refine string_yields (by omega) hp' (by omega) hin hl ?_
    exact returnSize_yields (by omega) he hl (covers_at he)

/-- A string that is there or not. -/
theorem optional_yields {cond : Prop} [Decidable cond] {w : Walk Cur ℤ α}
    (hends : StringsEnd m ((if cond then 1 else 0) + n) x e) (hx : b ≤ x) (he : (e : ℤ) ≤ b + l)
    (hin : b + l ≤ m.length) (hl : l < sizeLimit)
    (hw : ∀ x', b ≤ x' → StringsEnd m n x' e → wp (fun _ => False) w Q (Cur.at b l x')) :
    wp (fun _ => False) (if cond then shiftString m >>= fun _ => w else w) Q (Cur.at b l x) := by
  by_cases hcond : cond
  · rw [if_pos hcond, add_comm] at hends
    obtain ⟨p, hp, hrest⟩ := hends
    have hle := hp.le
    have hend := hrest.le
    rw [if_pos hcond]
    exact string_yields hx hp (by omega) hin hl (hw _ (by omega) hrest)
  · rw [if_neg hcond, zero_add] at hends
    rw [if_neg hcond]
    exact hw x hx hends

theorem sfsPathMessageSize_yields (hends : EndsAt m K 0 2 b .sfspath e) (hsize : (K.sfsPathMessage : ℤ) ≤ l)
    (hpos : 0 < K.sfsPathMessage) (he : (e : ℤ) ≤ b + l) (hin : b + l ≤ m.length) (hl : l < sizeLimit) :
    Yields (sfsPathMessageSize K m) (Covers b e l) ⟨b, l, 0⟩ := by
  have hpaths := K.paths_in
  have h0 : readField m b K.pathlen0 = some (field m b K.pathlen0) := readField_eq K.pathlen0_in (by omega)
  have h1 : readField m b K.pathlen1 = some (field m b K.pathlen1) := readField_eq K.pathlen1_in (by omega)
  refine struct_yields hsize (by omega) (by omega) hl (peek_rule h0 ?_)
  refine optional_yields hends (by omega) he hin hl fun x hx hends => peek_rule h1 ?_
  refine optional_yields (n := 0) hends hx he hin hl fun x hx hend => ?_
  obtain rfl : e = x := hend
  exact returnSize_yields hx he hl (covers_at he)

theorem anoubisStatMessageSize_yields (hsize : (K.anoubisStatMessage : ℤ) ≤ l) (he : (e : ℤ) ≤ b + l) :
    Yields (anoubisStatMessageSize K) (Covers b e l) ⟨b, l, 0⟩ :=
  castTo_rule (fun _ => get_rule ((wp_pure _).mpr ⟨he, Int.le_refl l⟩)) fun hbad => hbad hsize

theorem eventSize_yields (hends : EndsAt m K 0 2 b s e) (hsize : (structSize K s : ℤ) ≤ l)
    (hpos : 0 < K.sfsPathMessage) (he : (e : ℤ) ≤ b + l) (hin : b + l ≤ m.length) (hl : l < sizeLimit) :
    Yields (eventSize K m s) (Covers b e l) ⟨b, l, 0⟩ := by
  cases s with
  | alf => exact checkFunction_yields hends he
  | sandbox => exact stringCheckFunction_yields hends hsize he hin hl
  | sfs => exact stringCheckFunction_yields hends hsize he hin hl
  | sfsexec => exact stringCheckFunction_yields hends hsize he hin hl
  | sfspath => exact sfsPathMessageSize_yields hends hsize hpos he hin hl
  | process => exact checkFunction_yields hends he
  | stat => exact anoubisStatMessageSize_yields hsize he
  | ipc => exact checkFunction_yields hends he
  | playground => exact pgOpenMessageSize_yields hends hsize he hin hl
  | playgroundproc => exact checkFunction_yields hends he
  | playgroundfile => exact pgFileMessageSize_yields hends hsize he hin hl

/-! ### Events -/

/-- An event of `n` bytes at `hdr` whose payload ends at most 8 bytes in front of its end. -/
structure EventEnds (m : Bytes) (K : Kernel) (hdr n : ℕ) : Prop where
  inside : hdr + n ≤ m.length
  limit : n + 8 < 50000
  header : K.eventdevHdr ≤ n
  size : field m hdr K.msgSize = n
  payload : ∃ s e, K.source (field m hdr K.msgSource) = some s ∧ K.eventdevHdr + structSize K s ≤ n ∧
    EndsAt m K 0 2 (hdr + K.eventdevHdr) s e ∧ e ≤ hdr + n ∧ hdr + n ≤ e + 8

theorem variant_yields (hw : Yields w R ⟨c.buf, c.len, 0⟩) (hc : 0 ≤ c.size ∧ c.size ≤ sizeLimit)
    (hR : ∀ r, R r → 0 ≤ r ∧ c.size + r ≤ sizeLimit)
    (h : ∀ r, R r → wp (fun _ => False) (f ()) Q { c with size := c.size + r }) :
    wp (fun _ => False) (variant w >>= f) Q c := by
  have hlim : sizeLimit = 50000 := rfl
  obtain ⟨r, hr, hok⟩ := hw.result
  have hfits := hR r hok
  rw [wp_bind, variant]
  refine get_rule (peek_rule hr ?_)
  rw [← bind_pure (addSize r)]
  exact addSize_rule (by omega) hc (fun _ _ => h r hok) fun hbad => hbad hfits

theorem eventdevHdrSize_yields {hdr n : ℕ} (h : EventEnds m K hdr n) (hpos : 0 < K.sfsPathMessage) :
    Yields (eventdevHdrSize K m) (fun r => r = n) ⟨hdr, n, 0⟩ := by
  have hlim : sizeLimit = 50000 := rfl
  obtain ⟨hin, hlimit, hhdr, hsize, s, e, hsource, hstruct, hends, he, hpad⟩ := h
  refine castTo_rule (fun _ => get_rule ?_) fun hbad => hbad (by dsimp only; omega)
  refine peek_rule (readField_eq K.msgSize_in (by dsimp only; omega)) ?_
  dsimp only
  rw [hsize]
  refine checkLen_rule (by omega) (by omega) (fun _ _ _ => ?_) fun hbad => hbad (by omega)
  refine checkSize_rule (by omega) (fun _ _ => ?_) fun hbad => hbad (by omega)
  refine shiftCnt_rule (by omega) (by dsimp only; omega) size_zero (fun _ _ _ => ?_) fun hbad => hbad
    (by dsimp only; omega)
  refine peek_rule (readField_eq K.msgSource_in (by omega)) ?_
  simp only [hsource, Int.zero_add, Int.toNat_natCast]
  have hle := hends.le
  have hpayload := eventSize_yields (b := hdr + K.eventdevHdr) (l := n - K.eventdevHdr) hends (by omega) hpos
    (by omega) (by omega) (by omega)
  refine variant_yields hpayload (by dsimp only; omega) (fun r hr => ?_) fun r hr => get_rule ?_
  · unfold Covers at hr
    dsimp only
    omega
  · unfold Covers at hr
    dsimp only
    rw [if_neg (by omega), if_neg (by omega)]
    exact (wp_pure _).mpr rfl

/-- A message with such an event, and no more, is accepted. -/
theorem accepted_event {n : ℕ} (hlen : m.length = 8 + n) (htype : host m 4 4 = 4) (h : EventEnds m K 8 n)
    (hpos : 0 < K.sfsPathMessage) : accepted K m := by
  have hlim : sizeLimit = 50000 := rfl
  have hlimit := h.limit
  have hwalk : Yields (msgWalk K m) (fun r => r = 8 + n) ⟨0, m.length, 0⟩ := by
    refine struct_yields (by omega) (by omega) (by omega) (by omega) (peek_rule (readHost_eq ?_) ?_)
    · dsimp only
      omega
    · rw [htype]
      have hevent : Yields (caseSize K m .eventdev) (fun r => r = n) ⟨8, m.length - 8, 0⟩ := by
        have hrest : (m.length : ℤ) - 8 = n := by omega
        rw [hrest]
        exact eventdevHdrSize_yields h hpos
      have hcur : Cur.at 0 m.length 8 = ⟨8, m.length - 8, 8⟩ := by
        simp [Cur.at]
      rw [zero_add, hcur]
      refine variant_yields hevent (by dsimp only; omega) (fun r hr => ?_) fun r hr => ?_
      · dsimp only
        omega
      · refine returnSize_rule (by dsimp only; omega) (fun _ _ => ?_) fun hbad => hbad (by dsimp only; omega)
        dsimp only
        omega
  obtain ⟨r, hr, rfl⟩ := hwalk.result
  exact ⟨8 + n, hr, by omega, by omega⟩

end Anoubis.Daemon.Sizes

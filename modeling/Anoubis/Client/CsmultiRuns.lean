import Anoubis.Client.Csmulti
import Anoubis.Proto.VerifyRecords

/-! The accounting of a csmulti request.

    `Meets` rules out what breaks it: a record that does not fit into a message, an index of more than 16 bits, an
    answer EAGAIN, an answer of a server that does not know csmulti messages, and a checksum whose length wraps
    around. Everything else keeps `Ok`. -/

namespace Anoubis.Client

open Anoubis.Lib List
open Anoubis.Connection (Bytes u16 u32)
open Anoubis.MsgVerify Option

/-! ### The order of the loops -/

section Order

variable {req : Request} {i : ℕ}

/-- The cursor is at a record. -/
def LastOk (req : Request) : Prop := ∀ l, req.last = some l → l < req.reqs.length

/-- The rest of a loop that is in front of the cursor. -/
theorem csmultiFrom_front {l : ℕ} (hl : req.last = some l) (hlen : l < req.reqs.length) {k : ℕ} (hk : i + k = l)
    (hpos : 0 < k) : csmultiFrom req k (some i) = List.range' i k := by
  induction k generalizing i with
  | zero => omega
  | succ k ih =>
    rw [csmultiFrom, range'_succ]
    have hnext : csmultiIteratorNext req i = if k = 0 then none else some (i + 1) := by
      rw [csmultiIteratorNext, if_pos (show i + 1 < req.reqs.length by omega), hl]
      by_cases h0 : k = 0
      · rw [if_pos (by simp; omega), if_pos h0]
      · rw [if_neg (by simp; omega), if_neg h0]
    rw [hnext]
    split
    · rename_i h0
      subst h0
      rfl
    · rw [ih (by omega) (by omega)]

/-- The rest of a loop that is behind the cursor. -/
theorem csmultiFrom_back (hlast : LastOk req) {k : ℕ} (hle : req.last.getD 0 ≤ i) (hk : i + (k + 1) = req.reqs.length) :
    csmultiFrom req (k + 1 + req.last.getD 0) (some i) = List.range' i (k + 1) ++ List.range (req.last.getD 0) := by
  induction k generalizing i with
  | zero =>
    rw [show 0 + 1 + req.last.getD 0 = req.last.getD 0 + 1 by omega, csmultiFrom]
    have hne : req.reqs ≠ [] := by
      rintro h
      rw [h] at hk
      simp at hk
    cases hl : req.last with
    | none =>
      have hnext : csmultiIteratorNext req i = none := by
        simp [csmultiIteratorNext, show ¬ i + 1 < req.reqs.length by omega, hl]
      rw [hnext]
      rfl
    | some l =>
      have hll := hlast l hl
      have hnext : csmultiIteratorNext req i = if l = 0 then none else some 0 := by
        rw [csmultiIteratorNext, if_neg (show ¬ i + 1 < req.reqs.length by omega), hl, if_neg (by simp)]
        simp only [hne, if_false]
        by_cases h0 : l = 0
        · rw [if_pos h0, if_pos (by rw [h0])]
        · rw [if_neg h0, if_neg (by simpa using fun h => h0 h.symm)]
      rw [hnext, getD_some]
      by_cases h0 : l = 0
      · subst h0
        rfl
      · rw [if_neg h0, csmultiFrom_front hl hll (by omega) (by omega), range_eq_range']
        rfl
  | succ k ih =>
    rw [show k + 1 + 1 + req.last.getD 0 = (k + 1 + req.last.getD 0) + 1 by omega, csmultiFrom]
    have hnext : csmultiIteratorNext req i = some (i + 1) := by
      rw [csmultiIteratorNext, if_pos (show i + 1 < req.reqs.length by omega), if_neg]
      intro h
      rw [← h, getD_some] at hle
      omega
    rw [hnext, ih (by omega) (by omega), range'_succ]
    rfl

/-- A loop visits the records from the cursor on, and then those in front of it. -/
theorem csmultiOrder_eq (hlast : LastOk req) :
    csmultiOrder req = List.range' (req.last.getD 0) (req.reqs.length - req.last.getD 0) ++
      List.range (req.last.getD 0) := by
  rw [csmultiOrder]
  by_cases hne : req.reqs = []
  · have hl : req.last = none := by
      cases h : req.last with
      | none => rfl
      | some l =>
        have := hlast l h
        rw [hne] at this
        simp at this
    rw [hne, hl]
    rfl
  · have hpos : 0 < req.reqs.length := length_pos_iff.mpr hne
    have hle : req.last.getD 0 < req.reqs.length := by
      cases h : req.last with
      | none => exact hpos
      | some l => exact hlast l h
    have hfirst : csmultiIteratorFirst req = some (req.last.getD 0) := by
      rw [csmultiIteratorFirst]
      cases req.last with
      | none => simp [hne]
      | some l => rfl
    obtain ⟨k, hk⟩ : ∃ k, req.last.getD 0 + (k + 1) = req.reqs.length :=
      ⟨req.reqs.length - req.last.getD 0 - 1, by omega⟩
    have hsum : req.reqs.length = k + 1 + req.last.getD 0 := by omega
    rw [hfirst, show req.reqs.length - req.last.getD 0 = k + 1 by omega]
    conv => lhs; rw [hsum]
    exact csmultiFrom_back hlast (Nat.le_refl _) hk

theorem mem_csmultiOrder (hlast : LastOk req) : i ∈ csmultiOrder req ↔ i < req.reqs.length := by
  have hle : req.last.getD 0 ≤ req.reqs.length := by
    cases h : req.last with
    | none => simp
    | some l => exact Nat.le_of_lt (hlast l h)
  rw [csmultiOrder_eq hlast, mem_append, mem_range'_1, mem_range]
  omega

theorem mem_inOrder (hlast : LastOk req) {r : Record} : (i, r) ∈ inOrder req ↔ req.reqs[i]? = some r := by
  rw [inOrder, mem_filterMap]
  constructor
  · rintro ⟨j, -, hj⟩
    obtain ⟨r', hr', heq⟩ := map_eq_some_iff.mp hj
    cases heq
    exact hr'
  · intro hr
    have hlt := (List.getElem?_eq_some_iff.mp hr).1
    exact ⟨i, (mem_csmultiOrder hlast).mpr hlt, by rw [hr]; rfl⟩

/-- Records are found by their position. -/
theorem csmultiFind_eq (hlast : LastOk req) (hidx : ∀ i (r : Record), req.reqs[i]? = some r → r.idx = i) (k : ℕ) :
    csmultiFind req k = if k < req.reqs.length then some k else none := by
  have hpos : ∀ i, (req.reqs[i]?).map Record.idx = some k → i = k := by
    intro i h
    obtain ⟨r, hr, hk⟩ := map_eq_some_iff.mp h
    exact (hidx i r hr).symm.trans hk
  rw [csmultiFind]
  cases hf : (csmultiOrder req).find? fun i => decide ((req.reqs[i]?).map Record.idx = some k) with
  | none =>
    rw [find?_eq_none] at hf
    rw [if_neg]
    intro hlt
    refine hf k ((mem_csmultiOrder hlast).mpr hlt) (decide_eq_true ?_)
    rw [getElem?_eq_getElem hlt, map_some, hidx k _ (getElem?_eq_getElem hlt)]
  | some j =>
    have hj := hpos j (by simpa using find?_some hf)
    have hmem := (mem_csmultiOrder hlast).mp (mem_of_find?_eq_some hf)
    rw [if_pos (hj ▸ hmem), hj]

end Order

/-! ### Messages -/

/-- The records that are open. -/
def openCount (req : Request) : ℕ := req.reqs.countP Record.isOpen

/-- The length and the number of records that `__anoubis_csmulti_msg` computes. -/
def counted (req : Request) : ℕ × ℕ :=
  countRecords (recordLimit req.op) ((inOrder req).map Prod.snd) (headerLength req) 0

/-- The records that the next message asks for. -/
def asked (req : Request) : List (ℕ × Record) := ((inOrder req).filter fun x => x.2.isOpen).take (counted req).2

/-- The length of a record was computed without overflow, also when it is added to that of a message. -/
def Plain (r : Record) : Prop := r.length = r.written ∧ r.length + 8000 < 4294967296

section Message

variable {limit length n : ℕ} {rs : List Record} {xs : List (ℕ × Record)}

theorem countRecords_skip {r : Record} (h : r.isOpen = false) :
    countRecords limit (r :: rs) length n = countRecords limit rs length n := by
  rw [countRecords, if_pos h]

theorem countRecords_big {r : Record} (h : r.isOpen = true) (hbig : ¬ length + r.length ≤ 8000) (hp : Plain r)
    (hlen : length ≤ 8000) : countRecords limit (r :: rs) length n = (length, n) := by
  have huint : uint (length + r.length : ℕ) = length + r.length := uint_natCast (by have := hp.2; omega)
  rw [countRecords, if_neg (by simp [h]), if_pos]
  push_cast at huint
  omega

theorem countRecords_last {r : Record} (h : r.isOpen = true) (hfits : length + r.length ≤ 8000)
    (hn : n + 1 ≥ limit) : countRecords limit (r :: rs) length n = (length + r.length, n + 1) := by
  have huint : uint (length + r.length : ℕ) = length + r.length := uint_natCast (by omega)
  push_cast at huint
  rw [countRecords, if_neg (by simp [h]), if_neg (by omega), if_pos hn, huint]

theorem countRecords_next {r : Record} (h : r.isOpen = true) (hfits : length + r.length ≤ 8000)
    (hn : ¬ n + 1 ≥ limit) :
    countRecords limit (r :: rs) length n = countRecords limit rs (length + r.length) (n + 1) := by
  have huint : uint (length + r.length : ℕ) = length + r.length := uint_natCast (by omega)
  push_cast at huint
  rw [countRecords, if_neg (by simp [h]), if_neg (by omega), if_neg hn, huint]

/-- The counters only grow, and stay below their limits. -/
theorem countRecords_bounds (hp : ∀ r ∈ rs, r.isOpen = true → Plain r) (hlen : length ≤ 8000) (hn : n < limit) :
    length ≤ (countRecords limit rs length n).1 ∧ n ≤ (countRecords limit rs length n).2 ∧
      (countRecords limit rs length n).2 ≤ limit := by
  induction rs generalizing length n with
  | nil => exact ⟨Nat.le_refl _, Nat.le_refl _, by rw [countRecords]; omega⟩
  | cons r rs ih =>
    have hp' : ∀ r ∈ rs, r.isOpen = true → Plain r := fun r hr => hp r (mem_cons_of_mem _ hr)
    by_cases hopen : r.isOpen = true
    · by_cases hfits : length + r.length ≤ 8000
      · by_cases hlimit : n + 1 ≥ limit
        · rw [countRecords_last hopen hfits hlimit]
          dsimp only
          omega
        · rw [countRecords_next hopen hfits hlimit]
          obtain ⟨h₁, h₂, h₃⟩ := ih hp' hfits (n := n + 1) (by omega)
          omega
      · rw [countRecords_big hopen hfits (hp r mem_cons_self hopen) hlen]
        dsimp only
        omega
    · rw [countRecords_skip (by simpa using hopen)]
      exact ih hp' hlen hn

/-- A message without records means that there is nothing to ask for. -/
theorem countRecords_none (hfits : ∀ x, (xs.find? fun x => x.2.isOpen) = some x → length + x.2.length ≤ 8000)
    (hp : ∀ x ∈ xs, x.2.isOpen = true → Plain x.2) (h : (countRecords limit (xs.map Prod.snd) length 0).2 = 0) :
    (∀ x ∈ xs, x.2.isOpen = false) ∧ (countRecords limit (xs.map Prod.snd) length 0).1 = length := by
  induction xs with
  | nil => exact ⟨by simp, rfl⟩
  | cons x xs ih =>
    rw [map_cons] at h ⊢
    by_cases hopen : x.2.isOpen = true
    · have hx := hfits x (by simp [hopen])
      by_cases hone : 0 + 1 ≥ limit
      · rw [countRecords_last hopen hx hone] at h
        cases h
      · rw [countRecords_next hopen hx hone] at h
        have hp' : ∀ r ∈ xs.map Prod.snd, r.isOpen = true → Plain r := by
          intro r hr
          obtain ⟨y, hy, rfl⟩ := List.mem_map.mp hr
          exact hp y (mem_cons_of_mem _ hy)
        have := (countRecords_bounds hp' hx (show 0 + 1 < limit by omega)).2.1
        omega
    · have hclosed : x.2.isOpen = false := by simpa using hopen
      rw [countRecords_skip hclosed] at h ⊢
      obtain ⟨hall, hlength⟩ := ih (fun y hy => hfits y (by simpa [find?_cons, hclosed] using hy))
        (fun y hy => hp y (mem_cons_of_mem _ hy)) h
      refine ⟨fun y hy => ?_, hlength⟩
      rcases mem_cons.mp hy with rfl | hy
      · exact hclosed
      · exact hall y hy

theorem fillRecords_none {size recoff : ℕ} (hclosed : ∀ x ∈ xs, x.2.isOpen = false)
    (hsize : 16 + recoff + 8 ≤ size) : fillRecords size xs recoff n = some ([], none) := by
  induction xs with
  | nil => rw [fillRecords, if_pos hsize]
  | cons x xs ih =>
    obtain ⟨i, r⟩ := x
    rw [fillRecords, if_pos (hclosed _ mem_cons_self)]
    exact ih fun y hy => hclosed y (mem_cons_of_mem _ hy)

/-- The second step writes the records that the first one has counted, inside of the message. -/
theorem fillRecords_eq {recoff : ℕ} (hoff : 16 + recoff = length) (hp : ∀ x ∈ xs, x.2.isOpen = true → Plain x.2)
    (hlen : length ≤ 8000) (hlimit : limit ≤ 10000) (hn : n < limit)
    (hcount : n < (countRecords limit (xs.map Prod.snd) length n).2) :
    ∃ l, fillRecords ((countRecords limit (xs.map Prod.snd) length n).1 + 8) xs recoff
        ((countRecords limit (xs.map Prod.snd) length n).2 - n) =
      some ((((xs.filter fun x => x.2.isOpen).take ((countRecords limit (xs.map Prod.snd) length n).2 - n)).map
        fun x => x.2.toReq), some l) ∧ l ∈ xs.map Prod.fst := by
  induction xs generalizing length n recoff with
  | nil =>
    rw [map_nil, countRecords] at hcount
    exact absurd hcount (Nat.lt_irrefl _)
  | cons x xs ih =>
    obtain ⟨i, r⟩ := x
    have hp' : ∀ x ∈ xs, x.2.isOpen = true → Plain x.2 := fun y hy => hp y (mem_cons_of_mem _ hy)
    have hp'' : ∀ r ∈ xs.map Prod.snd, r.isOpen = true → Plain r := by
      intro r hr
      obtain ⟨y, hy, rfl⟩ := List.mem_map.mp hr
      exact hp' y hy
    rw [map_cons] at hcount ⊢
    by_cases hopen : r.isOpen = true
    · have hplain : Plain r := hp (i, r) mem_cons_self hopen
      by_cases hfits : length + r.length ≤ 8000
      · rw [filter_cons_of_pos (by simpa using hopen)]
        by_cases hone : n + 1 ≥ limit
        · rw [countRecords_last hopen hfits hone]
          refine ⟨i, ?_, by simp⟩
          dsimp only
          rw [show n + 1 - n = 1 by omega, fillRecords, if_neg (by simp [hopen]),
            if_neg (by rw [← hplain.1]; omega), if_pos (by rfl), if_pos (by omega)]
          simp
        · rw [countRecords_next hopen hfits hone] at hcount ⊢
          obtain ⟨h₁, h₂, h₃⟩ := countRecords_bounds hp'' hfits (show n + 1 < limit by omega)
          generalize hc : countRecords limit (xs.map Prod.snd) (length + r.length) (n + 1) = c at *
          obtain ⟨k, hk⟩ : ∃ k, c.2 - n = k + 1 := ⟨c.2 - n - 1, by omega⟩
          have huint : uint (((k + 1 : ℕ) : ℤ) - 1) = k := by
            rw [show (((k + 1 : ℕ) : ℤ) - 1) = (k : ℕ) by omega]
            exact uint_natCast (by omega)
          rw [hk, take_succ_cons, map_cons, fillRecords, if_neg (by simp [hopen]),
            if_neg (by rw [← hplain.1]; omega), huint]
          by_cases h0 : k = 0
          · rw [if_pos h0, if_pos (by omega), h0]
            exact ⟨i, by simp, by simp⟩
          · rw [if_neg h0]
            obtain ⟨l, hfill, hl⟩ := ih (n := n + 1)
              (show 16 + (recoff + r.length) = length + r.length by omega) hp' hfits (by omega)
              (by rw [hc]; omega)
            rw [hc, show c.2 - (n + 1) = k by omega] at hfill
            rw [hfill]
            exact ⟨l, rfl, mem_cons_of_mem _ hl⟩
      · rw [countRecords_big hopen hfits hplain hlen] at hcount
        exact absurd hcount (Nat.lt_irrefl _)
    · have hclosed : r.isOpen = false := by simpa using hopen
      rw [countRecords_skip hclosed] at hcount ⊢
      obtain ⟨l, hfill, hl⟩ := ih hoff hp' hlen hn hcount
      refine ⟨l, ?_, mem_cons_of_mem _ hl⟩
      rw [fillRecords, if_pos hclosed, filter_cons_of_neg (by simp [hclosed])]
      exact hfill

end Message

/-! ### Checksums in a reply -/

/-- From one checksum to the next, with the bytes that are left; lengths are added in 32 bits. -/
def NextGet (m : Bytes) (p q : ℕ × ℕ) : Prop :=
  8 ≤ p.2 ∧ uint (8 + u32 m (p.1 + 4)) ≤ p.2 ∧ u32 m p.1 ≠ sigTypeEot ∧
    q = (p.1 + uint (8 + u32 m (p.1 + 4)), p.2 - uint (8 + u32 m (p.1 + 4)))

/-- There is a checksum whose length makes the next one stand in the same place. -/
def Endless (m : Bytes) (off datalen : ℕ) : Prop :=
  ∃ p, Relation.ReflTransGen (NextGet m) (off, datalen) p ∧ 8 ≤ p.2 ∧ uint (8 + u32 m (p.1 + 4)) = 0 ∧
    u32 m p.1 ≠ sigTypeEot

/-- A pointer is what it was, or points to a checksum of its type in a payload of `own`. -/
def PointsInto (m : Bytes) (own : ℕ → ℕ → Prop) (cstype : ℕ) (old new : Option (Bytes × ℕ)) : Prop :=
  new = old ∨ ∃ off len e, own off len ∧ off ≤ e ∧ e + 8 ≤ off + len ∧ u32 m e = cstype ∧ new = some (m, e)

/-- The results of a record come from replies of `own`, or from earlier messages. The error stands in front of the
    payload. -/
structure Answered (m : Bytes) (own : ℕ → ℕ → Prop) (r r' : Record) : Prop where
  path : r'.path = r.path
  idx : r'.idx = r.idx
  length : r'.length = r.length
  csdata : r'.csdata = r.csdata
  error : r'.error = r.error ∨ ∃ off len, own off len ∧ r'.error = u32 m (off - 4)
  csum : PointsInto m own sigTypeCs r.csum r'.csum
  sig : PointsInto m own sigTypeSig r.sig r'.sig
  upgrade : PointsInto m own sigTypeUpgradecs r.upgrade r'.upgrade

section Replies

variable {m : Bytes} {own : ℕ → ℕ → Prop} {r r' r'' : Record} {off datalen : ℕ}

theorem PointsInto.refl {t : ℕ} (x : Option (Bytes × ℕ)) : PointsInto m own t x x := .inl rfl

theorem PointsInto.trans {t : ℕ} {x y z : Option (Bytes × ℕ)} (h : PointsInto m own t x y)
    (h' : PointsInto m own t y z) : PointsInto m own t x z := by
  rcases h' with rfl | h'
  · exact h
  · exact .inr h'

theorem Answered.refl (r : Record) : Answered m own r r :=
  ⟨rfl, rfl, rfl, rfl, .inl rfl, .refl _, .refl _, .refl _⟩

theorem Answered.trans (h : Answered m own r r') (h' : Answered m own r' r'') : Answered m own r r'' where
  path := h'.path.trans h.path
  idx := h'.idx.trans h.idx
  length := h'.length.trans h.length
  csdata := h'.csdata.trans h.csdata
  error := by
    rcases h'.error with he | he
    · rw [he]
      exact h.error
    · exact .inr he
  csum := h.csum.trans h'.csum
  sig := h.sig.trans h'.sig
  upgrade := h.upgrade.trans h'.upgrade

/-- Reading data leaves everything but the pointers alone. -/
structure OnlyData (r r' : Record) : Prop where
  path : r'.path = r.path
  idx : r'.idx = r.idx
  length : r'.length = r.length
  csdata : r'.csdata = r.csdata
  error : r'.error = r.error

theorem onlyData_point (r : Record) (cstype : ℕ) (e : Bytes × ℕ) : OnlyData r (r.point cstype e) := by
  rw [Record.point]
  split
  · exact ⟨rfl, rfl, rfl, rfl, rfl⟩
  · split
    · exact ⟨rfl, rfl, rfl, rfl, rfl⟩
    · split <;> exact ⟨rfl, rfl, rfl, rfl, rfl⟩

theorem OnlyData.isOpen (h : OnlyData r r') : r'.isOpen = r.isOpen := by
  rw [Record.isOpen, Record.isOpen, h.error]

theorem OnlyData.written (h : OnlyData r r') : r'.written = r.written := by
  rw [Record.written, Record.written, h.length, h.csdata, h.path]

/-- A pointer to a checksum in a payload of `own`. -/
theorem answered_point {len e : ℕ} (hown : own off len) (hoff : off ≤ e) (hlen : e + 8 ≤ off + len) :
    Answered m own r (r.point (u32 m e) (m, e)) := by
  have hnew : PointsInto m own (u32 m e) none (some (m, e)) := .inr ⟨off, len, e, hown, hoff, hlen, rfl, rfl⟩
  have hpoint : ∀ old, PointsInto m own (u32 m e) old (some (m, e)) := fun old => hnew.imp (fun h => by cases h) id
  rw [Record.point]
  split
  · rename_i h
    exact ⟨rfl, rfl, rfl, rfl, .inl rfl, h ▸ hpoint _, .refl _, .refl _⟩
  · split
    · rename_i h
      exact ⟨rfl, rfl, rfl, rfl, .inl rfl, .refl _, h ▸ hpoint _, .refl _⟩
    · split
      · rename_i h
        exact ⟨rfl, rfl, rfl, rfl, .inl rfl, .refl _, .refl _, h ▸ hpoint _⟩
      · exact .refl r

theorem handleGetFrom_succ {fuel : ℕ} (hin : off + datalen ≤ m.length) (r : Record) :
    handleGetFrom m (fuel + 1) off datalen r =
      if datalen < 8 ∨ uint (8 + u32 m (off + 4)) > datalen then some (-(efault : ℤ), r)
      else if u32 m off = sigTypeEot then some (0, r)
      else handleGetFrom m fuel (off + uint (8 + u32 m (off + 4))) (datalen - uint (8 + u32 m (off + 4)))
        (r.point (u32 m off) (m, off)) := by
  rw [handleGetFrom]
  by_cases hlen : datalen < 8
  · rw [if_pos hlen, if_pos (.inl hlen)]
  · rw [if_neg hlen, readU32_eq (by omega), readU32_eq (by omega)]
    by_cases htotal : uint (8 + u32 m (off + 4)) > datalen
    · rw [if_pos (.inr htotal)]
      exact if_pos htotal
    · rw [if_neg (fun h => h.elim hlen htotal)]
      exact if_neg htotal

/-- The loop ends, inside of its bytes, unless there is an endless checksum. -/
theorem handleGetFrom_ends {base len fuel : ℕ} (hown : own base len) (hbase : base ≤ off)
    (hfin : off + datalen = base + len) (hin : off + datalen ≤ m.length) (hend : ¬ Endless m off datalen)
    (hfuel : datalen < fuel) (r : Record) :
    ∃ x, handleGetFrom m fuel off datalen r = some x ∧ Answered m own r x.2 ∧ OnlyData r x.2 := by
  induction fuel generalizing off datalen r with
  | zero => omega
  | succ fuel ih =>
    rw [handleGetFrom_succ hin]
    split
    · exact ⟨_, rfl, .refl r, ⟨rfl, rfl, rfl, rfl, rfl⟩⟩
    rename_i hno
    have hlen : 8 ≤ datalen ∧ uint (8 + u32 m (off + 4)) ≤ datalen := by omega
    split
    · exact ⟨_, rfl, .refl r, ⟨rfl, rfl, rfl, rfl, rfl⟩⟩
    rename_i htype
    have hpos : uint (8 + u32 m (off + 4)) ≠ 0 := fun h0 => hend ⟨(off, datalen), .refl, hlen.1, h0, htype⟩
    have hnext : NextGet m (off, datalen)
        (off + uint (8 + u32 m (off + 4)), datalen - uint (8 + u32 m (off + 4))) := ⟨hlen.1, hlen.2, htype, rfl⟩
    have hend' : ¬ Endless m (off + uint (8 + u32 m (off + 4))) (datalen - uint (8 + u32 m (off + 4))) := by
      rintro ⟨p, hp, hrest⟩
      exact hend ⟨p, hp.head hnext, hrest⟩
    obtain ⟨x, hx, hans, honly⟩ := ih (by omega) (by omega) (by omega) hend' (by omega)
      (r.point (u32 m off) (m, off))
    have hpoint := onlyData_point r (u32 m off) (m, off)
    refine ⟨x, hx, (answered_point hown hbase (by omega)).trans hans, ?_⟩
    exact ⟨honly.path.trans hpoint.path, honly.idx.trans hpoint.idx, honly.length.trans hpoint.length,
      honly.csdata.trans hpoint.csdata, honly.error.trans hpoint.error⟩

/-- The loop does not end where there is an endless checksum. -/
theorem handleGetFrom_endless (hin : off + datalen ≤ m.length) (hend : Endless m off datalen) (fuel : ℕ)
    (r : Record) : handleGetFrom m fuel off datalen r = none := by
  induction fuel generalizing off datalen r with
  | zero => rfl
  | succ fuel ih =>
    obtain ⟨p, hp, hlen, h0, htype⟩ := hend
    rw [handleGetFrom_succ hin]
    rcases Relation.ReflTransGen.cases_head hp with rfl | ⟨q, ⟨hlen', htotal, htype', rfl⟩, hq⟩
    · dsimp only at hlen h0 htype
      rw [if_neg (by omega), if_neg htype]
      refine ih (by omega) ⟨(off, datalen), ?_, hlen, h0, htype⟩ _
      rw [h0]
      exact .refl
    · dsimp only at hlen' htotal htype' hq
      rw [if_neg (by omega), if_neg htype']
      exact ih (by omega) ⟨p, hq, hlen, h0, htype⟩ _

/-- When reading the data of a record ends. -/
theorem handleGet_terminates_iff (hin : off + datalen ≤ m.length) (r : Record) :
    (∃ fuel x, handleGetFrom m fuel off datalen r = some x) ↔ ¬ Endless m off datalen := by
  constructor
  · rintro ⟨fuel, x, hx⟩ hend
    rw [handleGetFrom_endless hin hend fuel r] at hx
    cases hx
  · intro hend
    have hown : ∀ own : ℕ → ℕ → Prop, (own = fun _ _ => True) → own off datalen := fun _ h => h ▸ trivial
    obtain ⟨x, hx, -⟩ := handleGetFrom_ends (hown _ rfl) (Nat.le_refl off) rfl hin hend (Nat.lt_succ_self datalen) r
    exact ⟨datalen + 1, x, hx⟩

end Replies

/-! ### Requests -/

/-- The books of a request are right. -/
structure Ok (req : Request) : Prop where
  few : req.reqs.length < 4294967296
  nreqs : req.nreqs = req.reqs.length
  idx : ∀ (i : ℕ) (r : Record), req.reqs[i]? = some r → r.idx = i
  opens : req.openreqs = openCount req
  last : LastOk req
  plain : ∀ r ∈ req.reqs, r.isOpen = true → Plain r

/-- The records of a request have got results, each from the replies of its own. -/
structure Changes (m : Bytes) (own : ℕ → ℕ → ℕ → Prop) (req req' : Request) : Prop where
  op : req'.op = req.op
  length : req'.reqs.length = req.reqs.length
  own : ∀ (i : ℕ) (r : Record), req.reqs[i]? = some r → ∃ r', req'.reqs[i]? = some r' ∧ Answered m (own i) r r'

section Requests

variable {m : Bytes} {own : ℕ → ℕ → ℕ → Prop} {req req' req'' : Request} {r r' : Record} {i : ℕ}

theorem Changes.refl (req : Request) : Changes m own req req := ⟨rfl, rfl, fun _ r hr => ⟨r, hr, .refl r⟩⟩

theorem Changes.trans (h : Changes m own req req') (h' : Changes m own req' req'') : Changes m own req req'' where
  op := h'.op.trans h.op
  length := h'.length.trans h.length
  own i r hr := by
    obtain ⟨r', hr', ha⟩ := h.own i r hr
    obtain ⟨r'', hr'', ha'⟩ := h'.own i r' hr'
    exact ⟨r'', hr'', ha.trans ha'⟩

theorem modify_eq_set {l : List Record} (h : l[i]? = some r) (f : Record → Record) : l.modify i f = l.set i (f r) := by
  apply ext_getElem?
  intro j
  rw [getElem?_modify, getElem?_set]
  by_cases hij : i = j
  · subst hij
    obtain ⟨hlt, rfl⟩ := List.getElem?_eq_some_iff.mp h
    simp [hlt]
  · simp [hij]

/-- One record changes, and the counter of the open ones with it. -/
theorem Ok.set {n : ℕ} {last : Option ℕ} (h : Ok req) (hr : req.reqs[i]? = some r) (hidx : r'.idx = r.idx)
    (hplain : r'.isOpen = true → Plain r')
    (hn : n + (if r.isOpen then 1 else 0) = openCount req + if r'.isOpen then 1 else 0)
    (hlast : ∀ l, last = some l → l < req.reqs.length) :
    Ok { req with reqs := req.reqs.set i r', openreqs := n, last := last } where
  few := by
    dsimp only
    rw [length_set]
    exact h.few
  nreqs := by
    dsimp only
    rw [length_set]
    exact h.nreqs
  idx j x hx := by
    dsimp only at hx
    rw [getElem?_set] at hx
    by_cases hij : i = j
    · subst hij
      rw [if_pos rfl, if_pos (List.getElem?_eq_some_iff.mp hr).1] at hx
      rw [← some.inj hx, hidx]
      exact h.idx i r hr
    · rw [if_neg hij] at hx
      exact h.idx j x hx
  opens := by
    obtain ⟨hlt, hget⟩ := List.getElem?_eq_some_iff.mp hr
    have hpos : r.isOpen = true → 0 < openCount req := fun ho =>
      countP_pos_iff.mpr ⟨r, mem_of_getElem? hr, ho⟩
    dsimp only
    rw [openCount, countP_set hlt, hget, ← openCount]
    by_cases ho : r.isOpen = true
    · have := hpos ho
      rw [if_pos ho] at hn ⊢
      omega
    · rw [if_neg ho] at hn ⊢
      omega
  last l hl := by
    dsimp only
    rw [length_set]
    exact hlast l hl
  plain x hx := by
    rcases mem_or_eq_of_mem_set hx with hx | rfl
    · exact h.plain x hx
    · exact hplain

theorem Changes.set {n : ℕ} {last : Option ℕ} (hr : req.reqs[i]? = some r) (ha : Answered m (own i) r r') :
    Changes m own req { req with reqs := req.reqs.set i r', openreqs := n, last := last } where
  op := rfl
  length := length_set
  own j x hx := by
    dsimp only
    rw [getElem?_set]
    by_cases hij : i = j
    · subst hij
      rw [if_pos rfl, if_pos (List.getElem?_eq_some_iff.mp hr).1]
      cases hr.symm.trans hx
      exact ⟨r', rfl, ha⟩
    · rw [if_neg hij]
      exact ⟨x, hx, .refl x⟩

/-- A record gets its error. -/
theorem answer_spec {off len : ℕ} (h : Ok req) (hr : req.reqs[i]? = some r) (hown : own i off len)
    (he : u32 m (off - 4) ≠ eagain) : Ok ((req.close i).answer i (u32 m (off - 4))) ∧
      Changes m own req ((req.close i).answer i (u32 m (off - 4))) := by
  have hlt := (List.getElem?_eq_some_iff.mp hr).1
  have hclosed : Record.isOpen { r with error := u32 m (off - 4) } = false := decide_eq_false he
  have hans : Answered m (own i) r { r with error := u32 m (off - 4) } :=
    ⟨rfl, rfl, rfl, rfl, .inr ⟨off, len, hown, rfl⟩, .refl _, .refl _, .refl _⟩
  have heq : (req.close i).answer i (u32 m (off - 4)) =
      { req with reqs := req.reqs.set i { r with error := u32 m (off - 4) },
                 openreqs := if r.isOpen then uint ((req.openreqs : ℤ) - 1) else req.openreqs,
                 last := some i } := by
    rw [Request.close, hr]
    by_cases ho : r.isOpen = true
    · rw [map_some, if_pos (by rw [ho]), if_pos ho, Request.answer]
      simp only [modify_eq_set hr]
    · rw [map_some, if_neg (by simpa using ho), if_neg ho, Request.answer]
      simp only [modify_eq_set hr]
  have hcount : (if r.isOpen then uint ((req.openreqs : ℤ) - 1) else req.openreqs) + (if r.isOpen then 1 else 0) =
      openCount req := by
    have hle : openCount req ≤ req.reqs.length := countP_le_length
    have hfew := h.few
    have hopens := h.opens
    by_cases ho : r.isOpen = true
    · have hpos : 0 < openCount req := countP_pos_iff.mpr ⟨r, mem_of_getElem? hr, ho⟩
      have huint : uint ((req.openreqs : ℤ) - 1) = openCount req - 1 := by
        rw [uint]
        omega
      rw [if_pos ho, if_pos ho, huint]
      omega
    · rw [if_neg ho, if_neg ho]
      omega
  rw [heq]
  refine ⟨h.set hr rfl (by simp [hclosed]) ?_ ?_, Changes.set hr hans⟩
  · rw [hcount, if_neg (by simp [hclosed]), add_zero]
  · intro l hl
    rw [← some.inj hl]
    exact hlt

/-- A record gets its data. -/
theorem getData_spec {off len : ℕ} (h : Ok req) (hr : req.reqs[i]? = some r) (hown : own i off len)
    (hin : off + len ≤ m.length) (hend : ¬ Endless m off len) :
    ∃ x, req.getData m i off len = some x ∧ Ok x.2 ∧ Changes m own req x.2 ∧ x.2.last = req.last := by
  obtain ⟨x, hx, hans, honly⟩ := handleGetFrom_ends hown (Nat.le_refl off) rfl hin hend (Nat.lt_succ_self len) r
  refine ⟨(x.1, { req with reqs := req.reqs.set i x.2 }), ?_, ?_, Changes.set hr hans, rfl⟩
  · rw [Request.getData, hr, bind_eq_bind, bind_some, csmultiHandleGet, hx]
    rfl
  · refine h.set hr honly.idx (fun ho => ?_) ?_ h.last
    · obtain ⟨hlen, hsmall⟩ := h.plain r (mem_of_getElem? hr) (by rw [← honly.isOpen, ho])
      exact ⟨by rw [honly.length, honly.written, hlen], by rw [honly.length]; exact hsmall⟩
    · rw [honly.isOpen, h.opens]

end Requests

/-! ### Answers -/

/-- The payloads of the records of a reply that answer the record at a position. -/
def ReplyOf (m : Bytes) (i off len : ℕ) : Prop :=
  ∃ o, ReplyRecord m o ∧ u16 m (12 + o) ≠ 0 ∧ u16 m (12 + o + 2) = i ∧ off = 12 + o + 8 ∧ len = u16 m (12 + o) - 8

/-- The payload of a reply to a request for a single record. -/
def SingleReply (m : Bytes) (i j off len : ℕ) : Prop := j = i ∧ off = 20 ∧ len = uint (payloadLen m 20)

/-- A reply to several records that does no harm: no record is to be asked for again, and the data of each of them
    comes to an end. -/
structure MultiMeets (req : Request) (m : Bytes) : Prop where
  noAgain : ∀ i < req.reqs.length, ∀ off len, ReplyOf m i off len → u32 m (off - 4) ≠ eagain
  ends : isGet req.op = true → ∀ i < req.reqs.length, ∀ off len, ReplyOf m i off len → u32 m (off - 4) = 0 →
    ¬ Endless m off len

/-- A reply to a single record that does no harm: it is open, and stays so, or it is neither of them. -/
structure SingleMeets (req : Request) (m : Bytes) : Prop where
  same : verifyLength m 20 = true → ∀ i r, req.last = some i → req.reqs[i]? = some r →
    (u32 m 16 = eagain ↔ r.isOpen = true)
  ends : isGet req.op = true → verifyLength m 20 = true → u32 m 16 = 0 → ¬ Endless m 20 (uint (payloadLen m 20))

section Answers

variable {m : Bytes} {req : Request}

theorem verifyLength_inside {n : ℕ} (h : verifyLength m n = true) (hn : n < 2147483648) :
    n + 4 ≤ m.length ∧ n ≤ messageMaxlen := by
  obtain ⟨h₁, h₂, h₃⟩ := of_decide_eq_true h
  have hint : int n = n := by
    rcases int_natCast (n := n) (by omega) with hi | hi <;> omega
  rw [hint] at h₂
  unfold messageMaxlen at h₂ ⊢
  have huint : uint (uint n + Connection.csumLen) = n + 4 := by
    rw [uint_natCast (by omega)]
    exact uint_natCast (n := n + 4) (by omega)
  rw [huint] at h₃
  omega

theorem replyLoop_spec (ret : ℤ) (h : Ok req) (hm : MultiMeets req m) {fuel off : ℕ} (hrec : ReplyRecord m off)
    (hoff : off ≤ 100000) (hin : off ≤ m.length) (hfuel : m.length < fuel + off) :
    ∃ x, replyLoop m fuel off ret req = some x ∧ Ok x.2 ∧ Changes m (ReplyOf m) req x.2 := by
  induction fuel generalizing off ret req with
  | zero => omega
  | succ fuel ih =>
    rw [replyLoop]
    by_cases hhead : verifyLength m (12 + off + 8 : ℕ) = true
    · have hlen := (verifyLength_inside hhead (by omega)).1
      rw [if_neg (ne_false_of_eq_true hhead), readU16_eq (by omega), readU16_eq (by omega), readU32_eq (by omega)]
      simp only [bind_eq_bind, bind_some]
      by_cases h0 : u16 m (12 + off) = 0
      · rw [if_pos h0]
        exact ⟨_, rfl, h, .refl req⟩
      rw [if_neg h0]
      have hlt := u16_lt (m := m) (12 + off)
      have hnext : uint (off + u16 m (12 + off)) = off + u16 m (12 + off) :=
        uint_natCast (n := off + u16 m (12 + off)) (by omega)
      by_cases hshort : u16 m (12 + off) < 8 ∨ uint (off + u16 m (12 + off)) < off
      · rw [if_pos hshort]
        exact ⟨_, rfl, h, .refl req⟩
      rw [if_neg hshort, hnext]
      by_cases hbody : verifyLength m (12 + (off + u16 m (12 + off)) : ℕ) = true
      · obtain ⟨hlen', hmax⟩ := verifyLength_inside hbody (by omega)
        unfold messageMaxlen at hmax
        rw [if_neg (ne_false_of_eq_true hbody)]
        have hrec' : ReplyRecord m (off + u16 m (12 + off)) := hrec.tail ⟨h0, rfl⟩
        rw [csmultiFind_eq h.last h.idx]
        by_cases hi : u16 m (12 + off + 2) < req.reqs.length
        · rw [if_pos hi]
          have hown : ReplyOf m (u16 m (12 + off + 2)) (12 + off + 8) (u16 m (12 + off) - 8) :=
            ⟨off, hrec, h0, rfl, rfl, rfl⟩
          obtain ⟨hok, hch⟩ := answer_spec h (getElem?_eq_getElem hi) hown (hm.noAgain _ hi _ _ hown)
          rw [show 12 + off + 8 - 4 = 12 + off + 4 by omega] at hok hch
          dsimp only
          generalize hreq : (req.close (u16 m (12 + off + 2))).answer (u16 m (12 + off + 2)) (u32 m (12 + off + 4)) =
            req' at hok hch ⊢
          have hm' : ∀ {x : Request}, Changes m (ReplyOf m) req x → MultiMeets x m := fun hx =>
            ⟨by rw [hx.length]; exact hm.noAgain, by rw [hx.op, hx.length]; exact hm.ends⟩
          by_cases hdone : u32 m (12 + off + 4) ≠ 0 ∨ isGet req'.op = false
          · rw [if_pos hdone]
            obtain ⟨x, hx, hokx, hchx⟩ := ih ret hok (hm' hch) hrec' (by omega) (by omega) (by omega)
            exact ⟨x, hx, hokx, hch.trans hchx⟩
          · rw [if_neg hdone]
            obtain ⟨herr, hget⟩ := not_or.mp hdone
            obtain ⟨r', hr', -⟩ := hch.own _ _ (getElem?_eq_getElem hi)
            have hend : ¬ Endless m (12 + off + 8) (u16 m (12 + off) - 8) := by
              refine hm.ends ?_ _ hi _ _ hown (not_not.mp herr)
              rw [← hch.op]
              simpa using hget
            obtain ⟨y, hy, hoky, hchy, -⟩ := getData_spec hok hr' hown (by omega) hend
            rw [hy]
            simp only [bind_some]
            split
            · exact ⟨y, rfl, hoky, hch.trans hchy⟩
            · obtain ⟨x, hx, hokx, hchx⟩ := ih y.1 hoky (hm' (hch.trans hchy)) hrec' (by omega) (by omega)
                (by omega)
              exact ⟨x, hx, hokx, (hch.trans hchy).trans hchx⟩
        · rw [if_neg hi]
          exact ih ret h hm hrec' (by omega) (by omega) (by omega)
      · rw [if_pos (by simpa using hbody)]
        exact ⟨_, rfl, h, .refl req⟩
    · rw [if_pos (by simpa using hhead)]
      exact ⟨_, rfl, h, .refl req⟩

theorem multiReply_spec (h : Ok req) (hm : u32 m 8 = 0 → u32 m 4 = req.op → MultiMeets req m) :
    ∃ x, multiReply req m = some x ∧ Ok x.2 ∧ Changes m (ReplyOf m) req x.2 := by
  rw [multiReply]
  by_cases hlong : verifyLength m 12 = true
  · have hlen := (verifyLength_inside (n := 12) hlong (by omega)).1
    rw [if_neg (ne_false_of_eq_true hlong), readU32_eq (by omega), readU32_eq (by omega)]
    simp only [bind_eq_bind, bind_some]
    split
    · exact ⟨_, rfl, h, .refl req⟩
    · rename_i herr
      split
      · exact ⟨_, rfl, h, .refl req⟩
      · rename_i hop
        exact replyLoop_spec _ h (hm (not_not.mp herr) (not_not.mp hop)) .refl (by omega) (by omega) (by omega)
  · rw [if_pos (by simpa using hlong)]
    exact ⟨_, rfl, h, .refl req⟩

theorem compatReply_spec (h : Ok req) (hm : SingleMeets req m) {i : ℕ} (hi : req.last = some i) :
    ∃ x, compatReply req m = some x ∧ Ok x.2 ∧ Changes m (SingleReply m i) req x.2 ∧ x.2.last = req.last := by
  rw [compatReply]
  by_cases hlong : verifyLength m 20 = true
  · have hlen := (verifyLength_inside (n := 20) hlong (by omega)).1
    have hlt := h.last i hi
    have hr : req.reqs[i]? = some req.reqs[i] := getElem?_eq_getElem hlt
    have hsame := hm.same hlong i _ hi hr
    generalize req.reqs[i] = r at hr hsame
    have hlast : ∀ f : ℕ → Option (ℤ × Request), (req.last >>= f) = f i := by
      intro f
      rw [hi]
      rfl
    rw [if_neg (ne_false_of_eq_true hlong), readU32_eq (by omega), hlast]
    simp only [bind_eq_bind, bind_some]
    have hown : SingleReply m i i 20 (uint (payloadLen m 20)) := ⟨rfl, rfl, rfl⟩
    have hopen : Record.isOpen { r with error := u32 m 16 } = r.isOpen := by
      rw [Bool.eq_iff_iff, ← hsame]
      exact decide_eq_true_iff
    have hans : Answered m (SingleReply m i i) r { r with error := u32 m 16 } :=
      ⟨rfl, rfl, rfl, rfl, .inr ⟨20, _, hown, rfl⟩, .refl _, .refl _, .refl _⟩
    have heq : { req with reqs := req.reqs.modify i fun r => { r with error := u32 m 16 } } =
        { req with reqs := req.reqs.set i { r with error := u32 m 16 }, openreqs := req.openreqs, last := req.last } := by
      rw [modify_eq_set hr]
    have hok : Ok { req with reqs := req.reqs.modify i fun r => { r with error := u32 m 16 } } := by
      rw [heq]
      refine h.set hr rfl (fun ho => ?_) (by rw [hopen, h.opens]) h.last
      exact h.plain r (mem_of_getElem? hr) (by rw [← hopen, ho])
    have hch : Changes m (SingleReply m i) req
        { req with reqs := req.reqs.modify i fun r => { r with error := u32 m 16 } } := by
      rw [heq]
      exact Changes.set hr hans
    split
    · exact ⟨_, rfl, hok, hch, rfl⟩
    · rename_i hdone
      obtain ⟨herr, hget⟩ := not_or.mp hdone
      obtain ⟨r', hr', -⟩ := hch.own i r hr
      have hpayload : 20 + uint (payloadLen m 20) ≤ m.length := by
        have hp : payloadLen m 20 = int (m.length - 20 - 4) := if_pos hlong
        have hmod := Int.bmod_emod (x := (m.length : ℤ) - 20 - 4) (m := 4294967296)
        rw [hp, uint, int]
        omega
      obtain ⟨x, hx, hokx, hchx, hlastx⟩ := getData_spec hok hr' hown hpayload
        (hm.ends (by simpa using hget) hlong (not_not.mp herr))
      exact ⟨x, hx, hokx, hch.trans hchx, hlastx⟩
  · rw [if_pos (by simpa using hlong)]
    exact ⟨_, rfl, h, .refl req, rfl⟩

end Answers

/-! ### Runs -/

/-- The first record that a message asks for fits into it. -/
def FirstFits (req : Request) : Prop :=
  ∀ x, ((inOrder req).find? fun x => x.2.isOpen) = some x → headerLength req + x.2.length ≤ 8000

/-- What keeps the books right: a request has fewer than 2^32 records, each of them can be sent and has an index of 16
    bits when it is, and the replies do no harm. -/
def Meets (s : St) : Op → Prop
  | .add path csdata => s.req.reqs.length + 1 < 4294967296 ∧
      8 + (csdata.getD []).length + (path.length + 1) + 8003 < 4294967296
  | .addError _ _ => s.req.reqs.length + 1 < 4294967296
  | .start compat => compat = false → FirstFits s.req ∧ ∀ x ∈ asked s.req, x.1 < 65536
  | .process m => answers m s.msg = true → (u32 m 0 = pReply → SingleMeets s.req m) ∧
      (u32 m 0 = pCsmultireply → u32 m 8 = 0 → u32 m 4 = s.req.op → MultiMeets s.req m)

/-- The last message names records by their own indexes and paths. -/
def MsgOk (req : Request) : Option ReqMsg → Prop
  | none => True
  | some (.csmulti _ _ _ _ _ records) => ∀ x ∈ records, ∃ r, req.reqs[x.index]? = some r ∧ r.path = x.path
  | some (.compat _ _ _ _ path) => ∃ i r, req.last = some i ∧ req.reqs[i]? = some r ∧ r.path = path

/-- Results come from the replies of a record only, and the message in between asked for its path under the index of
    the reply. -/
def OwnResults (s : St) : Op → St → Prop
  | .process m, s' =>
    match s.msg with
    | none => s' = s
    | some (.csmulti _ _ _ _ _ records) => Changes m (ReplyOf m) s.req s'.req ∧
        ∀ x ∈ records, ∃ r, s.req.reqs[x.index]? = some r ∧ r.path = x.path
    | some (.compat _ _ _ _ path) =>
      ∃ i r, s.req.reqs[i]? = some r ∧ r.path = path ∧ Changes m (SingleReply m i) s.req s'.req
  | _, s' => s.req.reqs <+: s'.req.reqs

section Runs

variable {req : Request} {s : St}

theorem alignedLength_eq {n : ℕ} (h : n + 3 < 4294967296) : n ≤ alignedLength n ∧ alignedLength n ≤ n + 3 := by
  have huint : uint (n : ℤ) = n := uint_natCast (by omega)
  rw [alignedLength, huint]
  split
  · omega
  · have hsum : uint ((n : ℤ) + ((4 - n % 4 : ℕ) : ℤ)) = n + (4 - n % 4) :=
      uint_natCast (n := n + (4 - n % 4)) (by omega)
    rw [show ((n : ℤ) + (4 - (n : ℤ) % 4)) = (n : ℤ) + ((4 - n % 4 : ℕ) : ℤ) by omega, hsum]
    omega

/-- A record that is added at the end. -/
theorem Ok.concat (h : Ok req) {r : Record} (hlen : req.reqs.length + 1 < 4294967296) (hidx : r.idx = req.nreqs)
    (hplain : r.isOpen = true → Plain r) {n : ℕ} (hn : n = openCount req + if r.isOpen then 1 else 0) :
    Ok { req with nreqs := uint (req.nreqs + 1), openreqs := n, reqs := req.reqs ++ [r] } where
  few := by simpa using hlen
  nreqs := by
    dsimp only
    rw [length_append, h.nreqs]
    exact uint_natCast (n := req.reqs.length + 1) hlen
  idx i x hx := by
    dsimp only at hx
    rw [getElem?_append] at hx
    split at hx
    · exact h.idx i x hx
    · rename_i hge
      obtain ⟨hlt, heq⟩ := List.getElem?_eq_some_iff.mp hx
      have h0 : i - req.reqs.length = 0 := by simpa using hlt
      simp only [h0, getElem_cons_zero] at heq
      rw [← heq, hidx, h.nreqs]
      omega
  opens := by
    rw [openCount, countP_append, ← openCount, hn, countP_singleton]
  last l hl := by
    have := h.last l hl
    dsimp only
    rw [length_append]
    omega
  plain x hx := by
    rcases mem_append.mp hx with hx | hx
    · exact h.plain x hx
    · rw [mem_singleton.mp hx]
      exact hplain

theorem ok_add (h : Ok req) {path : Bytes} {csdata : Option Bytes}
    (hmeets : req.reqs.length + 1 < 4294967296 ∧ 8 + (csdata.getD []).length + (path.length + 1) + 8003 < 4294967296) :
    Ok (csmultiAdd req path csdata).2 ∧ req.reqs <+: (csmultiAdd req path csdata).2.reqs ∧
      (csmultiAdd req path csdata).2.last = req.last := by
  rw [csmultiAdd]
  split
  · exact ⟨h, prefix_refl _, rfl⟩
  · have hal := alignedLength_eq (n := 8 + (csdata.getD []).length + (path.length + 1)) (by omega)
    refine ⟨h.concat hmeets.1 rfl (fun _ => ⟨?_, ?_⟩) ?_, prefix_append _ _, rfl⟩
    · rw [Record.written]
      dsimp only
      omega
    · dsimp only
      omega
    · have hle : openCount req ≤ req.reqs.length := countP_le_length
      rw [h.opens, if_pos (by simp [Record.isOpen])]
      exact uint_natCast (n := openCount req + 1) (by omega)

theorem ok_addError (path : Bytes) (error : ℕ) (h : Ok req) (hmeets : req.reqs.length + 1 < 4294967296) :
    Ok (csmultiAddError req path error).2 ∧ req.reqs <+: (csmultiAddError req path error).2.reqs ∧
      (csmultiAddError req path error).2.last = req.last := by
  rw [csmultiAddError]
  split
  · exact ⟨h, prefix_refl _, rfl⟩
  · rename_i he
    have hclosed : ∀ r : Record, r.error = error → r.isOpen = false := by
      rintro r rfl
      exact decide_eq_false he
    refine ⟨h.concat hmeets rfl (fun ho => ?_) ?_, prefix_append _ _, rfl⟩
    · rw [hclosed _ rfl] at ho
      cases ho
    · rw [hclosed _ rfl, h.opens]
      rfl

end Runs

/-! ### Steps -/

section Steps

variable {req : Request} {s : St}

theorem headerLength_ge (req : Request) : 16 ≤ headerLength req := by
  rw [headerLength]
  omega

theorem recordLimit_bounds (op : ℕ) : 0 < recordLimit op ∧ recordLimit op ≤ 10000 := by
  rw [recordLimit]
  split <;> omega

theorem plain_inOrder (h : Ok req) : ∀ x ∈ inOrder req, x.2.isOpen = true → Plain x.2 := by
  rintro ⟨i, r⟩ hx ho
  exact h.plain r (mem_of_getElem? ((mem_inOrder h.last).mp hx)) ho

/-- All records are answered. -/
theorem openCount_eq_zero (h : Ok req) (hclosed : ∀ x ∈ inOrder req, x.2.isOpen = false) : openCount req = 0 := by
  rw [openCount, countP_eq_zero]
  intro r hr
  obtain ⟨i, hi, rfl⟩ := mem_iff_getElem.mp hr
  rw [hclosed (i, _) ((mem_inOrder h.last).mpr (getElem?_eq_getElem hi))]
  simp

/-- The two steps of a message fit together: it holds the records that are asked for. -/
theorem fill_spec (h : Ok req) (hfits : FirstFits req) :
    ∃ l, fillRecords ((counted req).1 + 8) (inOrder req) (headerLength req - 16) (counted req).2 =
        some ((asked req).map fun x => x.2.toReq, l) ∧
      (∀ i, l = some i → i < req.reqs.length) ∧ ((counted req).2 = 0 → openCount req = 0) := by
  have hplain := plain_inOrder h
  have hge := headerLength_ge req
  obtain ⟨hpos, hlimit⟩ := recordLimit_bounds req.op
  by_cases hzero : (counted req).2 = 0
  · obtain ⟨hclosed, hlength⟩ := countRecords_none hfits hplain hzero
    refine ⟨none, ?_, by simp, fun _ => openCount_eq_zero h hclosed⟩
    rw [fillRecords_none hclosed, asked, hzero]
    · rfl
    · rw [counted, hlength]
      omega
  · have hopen : ∃ x, ((inOrder req).find? fun x => x.2.isOpen) = some x := by
      by_contra hnone
      refine hzero ?_
      have hclosed : ∀ x ∈ inOrder req, x.2.isOpen = false := by
        rw [← ne_none_iff_exists', not_not, find?_eq_none] at hnone
        intro x hx
        simpa using hnone x hx
      rw [counted]
      clear hzero hnone hfits
      generalize inOrder req = xs at hclosed ⊢
      induction xs with
      | nil => rfl
      | cons x xs ih =>
        rw [map_cons, countRecords_skip (hclosed x mem_cons_self)]
        exact ih fun y hy => hclosed y (mem_cons_of_mem _ hy)
    obtain ⟨x, hx⟩ := hopen
    have hheader : headerLength req ≤ 8000 := by
      have := hfits x hx
      omega
    obtain ⟨l, hfill, hl⟩ := fillRecords_eq (n := 0)
      (show 16 + (headerLength req - 16) = headerLength req by omega) hplain hheader hlimit
      hpos (by rw [← counted]; omega)
    refine ⟨some l, hfill, ?_, fun h0 => absurd h0 hzero⟩
    rintro i heq
    cases heq
    obtain ⟨⟨j, r⟩, hmem, rfl⟩ := List.mem_map.mp hl
    exact (List.getElem?_eq_some_iff.mp ((mem_inOrder h.last).mp hmem)).1

/-- A message that is built leaves the books right, and names records by their own paths. -/
theorem csmultiMsg_spec (h : Ok req) {compat : Bool}
    (hmeets : compat = false → FirstFits req ∧ ∀ x ∈ asked req, x.1 < 65536) :
    ∃ x, csmultiMsg req compat = some x ∧ Ok x.2 ∧ MsgOk x.2 x.1 ∧ x.2.reqs = req.reqs := by
  rw [csmultiMsg]
  split
  · exact ⟨_, rfl, h, trivial, rfl⟩
  cases compat with
  | true =>
    refine ⟨_, if_pos rfl, ?_⟩
    rw [compatMsg]
    cases hfind : (inOrder req).find? fun x => x.2.isOpen with
    | none =>
      have hclosed : ∀ x ∈ inOrder req, x.2.isOpen = false := by
        intro x hx
        simpa using find?_eq_none.mp hfind x hx
      refine ⟨⟨h.few, h.nreqs, h.idx, ?_, h.last, h.plain⟩, trivial, rfl⟩
      exact (openCount_eq_zero h hclosed).symm
    | some x =>
      obtain ⟨i, r⟩ := x
      have hr := (mem_inOrder h.last).mp (mem_of_find?_eq_some hfind)
      refine ⟨⟨h.few, h.nreqs, h.idx, h.opens, ?_, h.plain⟩, ?_, rfl⟩
      · intro l hl
        rw [← some.inj hl]
        exact (List.getElem?_eq_some_iff.mp hr).1
      · dsimp only
        rw [clientCompatChecksumMsg]
        split
        · trivial
        · split
          · trivial
          · split
            · trivial
            · exact ⟨i, r, rfl, hr, rfl⟩
  | false =>
    obtain ⟨hfits, hindex⟩ := hmeets rfl
    obtain ⟨l, hfill, hl, hzero⟩ := fill_spec h hfits
    rw [if_neg (by simp)]
    dsimp only
    rw [← counted, hfill]
    refine ⟨_, rfl, ⟨h.few, h.nreqs, h.idx, ?_, hl, h.plain⟩, ?_, rfl⟩
    · dsimp only
      split
      · rename_i h0
        exact (hzero h0).symm
      · exact h.opens
    · intro x hx
      obtain ⟨⟨i, r⟩, hmem, rfl⟩ := List.mem_map.mp hx
      have hin : (i, r) ∈ inOrder req := mem_of_mem_filter (mem_of_mem_take hmem)
      have hr := (mem_inOrder h.last).mp hin
      have hlt := hindex _ hmem
      refine ⟨r, ?_, rfl⟩
      rw [Record.toReq]
      dsimp only
      rw [h.idx i r hr, Nat.mod_eq_of_lt hlt]
      exact hr

/-- The last message still names the same records. -/
theorem MsgOk.mono {req' : Request} {msg : Option ReqMsg} (h : MsgOk req msg)
    (hkeep : ∀ (i : ℕ) (r : Record), req.reqs[i]? = some r → ∃ r', req'.reqs[i]? = some r' ∧ r'.path = r.path)
    (hlast : ∀ op uid keyid csdata path, msg = some (.compat op uid keyid csdata path) → req'.last = req.last) :
    MsgOk req' msg := by
  cases msg with
  | none => trivial
  | some q =>
    cases q with
    | csmulti op uid idlen recoff keyid records =>
      intro x hx
      obtain ⟨r, hr, hpath⟩ := h x hx
      obtain ⟨r', hr', hpath'⟩ := hkeep _ r hr
      exact ⟨r', hr', hpath'.trans hpath⟩
    | compat op uid keyid csdata path =>
      obtain ⟨i, r, hi, hr, hpath⟩ := h
      obtain ⟨r', hr', hpath'⟩ := hkeep i r hr
      exact ⟨i, r', (hlast _ _ _ _ _ rfl).trans hi, hr', hpath'.trans hpath⟩

theorem keeps_of_extends {l l' : List Record} (h : l <+: l') (i : ℕ) (r : Record) (hr : l[i]? = some r) :
    ∃ r', l'[i]? = some r' ∧ r'.path = r.path := by
  obtain ⟨hlt, rfl⟩ := List.getElem?_eq_some_iff.mp hr
  exact ⟨_, List.prefix_iff_getElem?.mp h i hlt, rfl⟩

theorem keeps_of_changes {m : Bytes} {own : ℕ → ℕ → ℕ → Prop} {req' : Request} (h : Changes m own req req') (i : ℕ)
    (r : Record) (hr : req.reqs[i]? = some r) : ∃ r', req'.reqs[i]? = some r' ∧ r'.path = r.path := by
  obtain ⟨r', hr', ha⟩ := h.own i r hr
  exact ⟨r', hr', ha.path⟩

/-- The invariant of a run. -/
structure StOk (s : St) : Prop where
  books : Ok s.req
  msg : MsgOk s.req s.msg

theorem Ok.finish (h : Ok req) (ret : ℤ) (m : Bytes) : Ok (clientCsmultiFinish req ret m) :=
  ⟨h.few, h.nreqs, h.idx, h.opens, h.last, h.plain⟩

theorem Changes.finish {m : Bytes} {own : ℕ → ℕ → ℕ → Prop} {req' : Request} (h : Changes m own req req') (ret : ℤ) :
    Changes m own req (clientCsmultiFinish req' ret m) := ⟨h.op, h.length, h.own⟩

theorem clientCsmultiSteps_eq (req : Request) (m : Bytes) :
    (u32 m 0 = pReply → clientCsmultiSteps req m = compatReply req m ∨ clientCsmultiSteps req m = some (-(eproto : ℤ), req)) ∧
    (u32 m 0 = pCsmultireply →
      clientCsmultiSteps req m = multiReply req m ∨ clientCsmultiSteps req m = some (-(eproto : ℤ), req)) := by
  rw [clientCsmultiSteps]
  by_cases hlong : verifyLength m 4 = true
  · have hlen := (verifyLength_inside (n := 4) hlong (by omega)).1
    rw [if_neg (ne_false_of_eq_true hlong), readU32_eq (by omega)]
    simp only [bind_eq_bind, bind_some]
    refine ⟨fun ht => .inl (if_pos ht), fun ht => .inl ?_⟩
    rw [ht, if_neg (by decide), if_pos rfl]
  · rw [if_pos (by simpa using hlong)]
    exact ⟨fun _ => .inr rfl, fun _ => .inr rfl⟩

/-- A reply leaves the books right. -/
theorem process_spec (h : StOk s) {m : Bytes} (hans : answers m s.msg = true)
    (hmeets : (u32 m 0 = pReply → SingleMeets s.req m) ∧
      (u32 m 0 = pCsmultireply → u32 m 8 = 0 → u32 m 4 = s.req.op → MultiMeets s.req m)) :
    ∃ x, clientCsmultiSteps s.req m = some x ∧ StOk ⟨clientCsmultiFinish x.2 x.1 m, s.msg⟩ ∧
      OwnResults s (.process m) ⟨clientCsmultiFinish x.2 x.1 m, s.msg⟩ := by
  obtain ⟨hsingle, hmulti⟩ := clientCsmultiSteps_eq s.req m
  obtain ⟨req, msg⟩ := s
  cases msg with
  | none => cases hans
  | some q =>
    cases q with
    | csmulti op uid idlen recoff keyid records =>
      have ht : u32 m 0 = pCsmultireply := of_decide_eq_true hans
      have hspec : ∃ x, clientCsmultiSteps req m = some x ∧ Ok x.2 ∧ Changes m (ReplyOf m) req x.2 := by
        rcases hmulti ht with heq | heq
        · rw [heq]
          exact multiReply_spec h.books (hmeets.2 ht)
        · exact ⟨_, heq, h.books, .refl req⟩
      obtain ⟨x, hx, hok, hch⟩ := hspec
      refine ⟨x, hx, ⟨hok.finish _ _, h.msg.mono (keeps_of_changes (hch.finish _)) ?_⟩, hch.finish _, h.msg⟩
      intro _ _ _ _ _ heq
      cases heq
    | compat op uid keyid csdata path =>
      have ht : u32 m 0 = pReply := of_decide_eq_true hans
      obtain ⟨i, r, hi, hr, hpath⟩ := h.msg
      have hspec : ∃ x, clientCsmultiSteps req m = some x ∧ Ok x.2 ∧ Changes m (SingleReply m i) req x.2 ∧
          x.2.last = req.last := by
        rcases hsingle ht with heq | heq
        · rw [heq]
          exact compatReply_spec h.books (hmeets.1 ht) hi
        · exact ⟨_, heq, h.books, .refl req, rfl⟩
      obtain ⟨x, hx, hok, hch, hlast⟩ := hspec
      exact ⟨x, hx, ⟨hok.finish _ _, h.msg.mono (keeps_of_changes (hch.finish _)) fun _ _ _ _ _ _ => hlast⟩,
        i, r, hr, hpath, hch.finish _⟩

/-- A reply that nobody waits for changes nothing. -/
theorem ownResults_idle (h : StOk s) (m : Bytes) : OwnResults s (.process m) s := by
  obtain ⟨req, msg⟩ := s
  cases msg with
  | none => rfl
  | some q =>
    cases q with
    | csmulti op uid idlen recoff keyid records => exact ⟨.refl req, h.msg⟩
    | compat op uid keyid csdata path =>
      obtain ⟨i, r, -, hr, hpath⟩ := h.msg
      exact ⟨i, r, hr, hpath, .refl req⟩

/-- A step that meets the condition is taken, and keeps the invariant. -/
theorem step_spec (h : StOk s) {o : Op} (hmeets : Meets s o) :
    ∃ s', step s o = some s' ∧ StOk s' ∧ OwnResults s o s' := by
  cases o with
  | add path csdata =>
    obtain ⟨hok, hpre, hlast⟩ := ok_add h.books hmeets
    exact ⟨_, rfl, ⟨hok, h.msg.mono (keeps_of_extends hpre) fun _ _ _ _ _ _ => hlast⟩, hpre⟩
  | addError path error =>
    obtain ⟨hok, hpre, hlast⟩ := ok_addError path error h.books hmeets
    exact ⟨_, rfl, ⟨hok, h.msg.mono (keeps_of_extends hpre) fun _ _ _ _ _ _ => hlast⟩, hpre⟩
  | start compat =>
    obtain ⟨x, hx, hok, hmsg, hreqs⟩ := csmultiMsg_spec h.books hmeets
    refine ⟨⟨x.2, x.1⟩, ?_, ⟨hok, hmsg⟩, ?_⟩
    · rw [step, hx]
      rfl
    · rw [OwnResults]
      · exact hreqs ▸ prefix_refl _
      · simp
  | process m =>
    by_cases hans : answers m s.msg = true
    · obtain ⟨x, hx, hok, hown⟩ := process_spec h hans (hmeets hans)
      refine ⟨_, ?_, hok, hown⟩
      rw [step, if_pos hans, hx]
      rfl
    · exact ⟨s, if_neg hans, h, ownResults_idle h m⟩

end Steps

/-! ### Whole runs -/

theorem stOk_create {op uid : ℕ} {keyid : Option Bytes} {req : Request} (h : csmultiCreate op uid keyid = some req) :
    StOk ⟨req, none⟩ := by
  have hreq : req = ⟨op, 0, 0, uid, keyid, [], false, none, []⟩ := by
    rw [csmultiCreate] at h
    split at h
    · split at h
      · cases h
      · exact (some.inj h).symm
    · split at h
      · split at h
        · cases h
        · exact (some.inj h).symm
      · cases h
  subst hreq
  exact ⟨⟨by simp, rfl, by simp, rfl, fun _ h => (by cases h), by simp⟩, trivial⟩

theorem runs_spec {s : St} (h : StOk s) {ops : List Op} (ha : Along step Meets s ops) :
    ∃ s', runs step s ops = some s' ∧ StOk s' := by
  induction ops generalizing s with
  | nil => exact ⟨s, rfl, h⟩
  | cons o ops ih =>
    obtain ⟨s₁, hs, hok, -⟩ := step_spec h ha.1
    obtain ⟨s', hr, hok'⟩ := ih hok (ha.2 s₁ hs)
    exact ⟨s', by rw [runs, hs]; exact hr, hok'⟩

theorem openCount_eq_zero_iff {req : Request} : openCount req = 0 ↔ ∀ r ∈ req.reqs, r.error ≠ eagain := by
  rw [openCount, countP_eq_zero]
  simp [Record.isOpen]

/-- The accounting of a request in every run that meets the condition: each step is taken, within the bounds of its
    buffers, the counter says how many records are open, and results go to their own records. Whatever the bytes of a
    payload are, reading its data stays inside of it, and ends unless there is an endless checksum. -/
theorem csmulti_accounted {op uid : ℕ} {keyid : Option Bytes} {req : Request}
    (h : csmultiCreate op uid keyid = some req) {ops : List Op} (ha : Along step Meets ⟨req, none⟩ ops) :
    (∃ s, runs step ⟨req, none⟩ ops = some s ∧ s.req.openreqs = openCount s.req ∧
      (s.req.openreqs = 0 ↔ ∀ r ∈ s.req.reqs, r.error ≠ eagain) ∧
      ∀ o, Meets s o → ∃ s', step s o = some s' ∧ s'.req.openreqs = openCount s'.req ∧ OwnResults s o s') ∧
    ∀ (m : Bytes) (off datalen : ℕ) (r : Record), off + datalen ≤ m.length →
      ((∃ fuel x, handleGetFrom m fuel off datalen r = some x) ↔ ¬ Endless m off datalen) := by
  refine ⟨?_, fun m off datalen r hin => handleGet_terminates_iff hin r⟩
  obtain ⟨s, hr, hok⟩ := runs_spec (stOk_create h) ha
  refine ⟨s, hr, hok.books.opens, ?_, fun o ho => ?_⟩
  · rw [hok.books.opens]
    exact openCount_eq_zero_iff
  · obtain ⟨s', hs, hok', hown⟩ := step_spec hok ho
    exact ⟨s', hs, hok'.books.opens, hown⟩

/-- A request that reads one checksum, and the one that deletes one. -/
def sampleRequest (op : ℕ) : Request := ⟨op, 0, 0, 0, none, [], false, none, []⟩

/-- A reply to one record, with the index 0 and without data. -/
def sampleReply (op error : UInt8) : Bytes :=
  [0, 0, 0x31, 0x11, 0, 0, 0, op, 0, 0, 0, 0] ++ [0, 8, 0, 0, 0, 0, 0, error] ++ [0, 0, 0, 0, 0, 0, 0, 0] ++ [0, 0, 0, 0]

/-- The path /a. -/
def samplePath : Bytes := [47, 97]

theorem replyOf_sample {op error : UInt8} {i off len : ℕ} (h : ReplyOf (sampleReply op error) i off len) :
    off = 20 := by
  obtain ⟨o, hrec, h0, -, rfl, -⟩ := h
  have hwhere : o = 0 ∨ o = 8 := by
    clear h0
    induction hrec with
    | refl => exact .inl rfl
    | tail _ hnext ih =>
      obtain ⟨hne, rfl⟩ := hnext
      rcases ih with rfl | rfl
      · exact .inr rfl
      · exact absurd rfl hne
  rcases hwhere with rfl | rfl
  · rfl
  · exact absurd rfl h0

/-- A checksum is deleted. -/
theorem csmulti_accounted_delete :
    ∃ s, runs step ⟨sampleRequest opDel, none⟩ [.add samplePath none, .start false, .process (sampleReply 2 0)] =
        some s ∧ s.req.openreqs = openCount s.req ∧ (s.req.openreqs = 0 ↔ ∀ r ∈ s.req.reqs, r.error ≠ eagain) ∧
      ∀ o, Meets s o → ∃ s', step s o = some s' ∧ s'.req.openreqs = openCount s'.req ∧ OwnResults s o s' := by
  have ha : Along step Meets ⟨sampleRequest opDel, none⟩
      [.add samplePath none, .start false, .process (sampleReply 2 0)] := by
    refine ⟨⟨by decide, by decide⟩, fun s hs => ⟨?_, fun s' hs' => ⟨?_, fun _ _ => trivial⟩⟩⟩
    · obtain rfl := Option.some.inj hs
      refine fun _ => ⟨fun x hx => ?_, by decide⟩
      obtain rfl := Option.some.inj hx
      decide
    · obtain rfl := Option.some.inj hs
      obtain rfl := Option.some.inj hs'
      refine fun _ => ⟨fun h => absurd h (by decide), fun _ _ _ => ⟨?_, fun h => absurd h (by decide)⟩⟩
      intro i _ off len hof
      rw [replyOf_sample hof]
      decide
  exact (csmulti_accounted (show csmultiCreate opDel 0 none = some (sampleRequest opDel) from rfl) ha).1

/-- The daemon asks to repeat a request: the record is still open, and not counted any more. -/
theorem csmulti_miscounted :
    verifyCsmultireply (sampleReply 16 11) = some true ∧
      (runs step ⟨sampleRequest opGet2, none⟩
        [.add samplePath none, .start false, .process (sampleReply 16 11)]).map
          (fun s => (s.req.openreqs, openCount s.req)) = some (0, 1) := by
  decide +kernel

end Anoubis.Client

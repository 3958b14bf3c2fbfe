import Anoubis.Apn.Index
import Mathlib.Data.List.Nodup

/-! The rule-ID index.

    `Inv ix es`: the index holds exactly the entries `es`, which have pairwise distinct keys between 1
    and UINT_MAX. Every operation is followed through its updates of the index:

        Inv ix es  --assign e-->  Inv ix' (⟨nid, e⟩ :: es)
        Inv ix (e :: es)  --remove e-->  Inv ix' es

    and the queues of the result hold the same entries up to order. Two things break it: explicit IDs
    beyond 32 bit, and the linear search of `apn_assign_id` when it comes to the ID 0. -/

namespace Anoubis.Apn

open Anoubis.Lib List

/-- The index is the list of entries `es`. -/
structure Inv (ix : Index) (es : List IdEntry) : Prop where
  perm : ix.idtree.Perm es
  keys : (es.map (·.key)).Nodup
  datas : (es.map (·.data)).Nodup
  bound : ∀ e ∈ es, 0 < e.key ∧ e.key < uintMod
  maxid : 0 < ix.maxid ∧ ix.maxid < uintMod

variable {ix : Index} {es root : List IdEntry} {key : ℕ}

theorem Inv.of_perm {es' : List IdEntry} (h : Inv ix es) (hp : es.Perm es') :
    Inv ix es' where
  perm := h.perm.trans hp
  keys := (hp.map _).nodup_iff.mp h.keys
  datas := (hp.map _).nodup_iff.mp h.datas
  bound := fun e he => h.bound e (hp.mem_iff.mpr he)
  maxid := h.maxid

theorem rbFind_eq_none_iff : rbFind root key = none ↔ key ∉ root.map (·.key) := by
  rw [rbFind, find?_eq_none]
  simp

theorem Inv.mem_keys (h : Inv ix es) : key ∈ ix.idtree.map (·.key) ↔ key ∈ es.map (·.key) :=
  (h.perm.map _).mem_iff

variable {e : IdEntry} {data maxid : ℕ} {sel : ℕ → Bool}

/-- In an index with distinct keys every entry is found. -/
theorem Inv.find_eq_some_iff (h : Inv ix es) : rbFind ix.idtree key = some e ↔ e ∈ es ∧ e.key = key := by
  constructor
  · intro hf
    exact ⟨h.perm.mem_iff.mp (mem_of_find?_eq_some hf), by simpa using find?_some hf⟩
  · rintro ⟨he, rfl⟩
    cases hf : rbFind ix.idtree e.key with
    | none =>
      rw [rbFind_eq_none_iff, h.mem_keys] at hf
      exact absurd (mem_map_of_mem he) hf
    | some e' =>
      have he' : e' ∈ es := h.perm.mem_iff.mp (mem_of_find?_eq_some hf)
      have hk : e'.key = e.key := by simpa using find?_some hf
      rw [inj_on_of_nodup_map h.keys he' he hk]

/-! ### One entry -/

/-- A new entry with a free key. -/
theorem Inv.insert {ix' : Index} (h : Inv ix es) (hkey : rbFind ix.idtree key = none)
    (hb : 0 < key ∧ key < uintMod) (hdata : data ∉ es.map (·.data))
    (htree : ix'.idtree = rbInsertEntry ix.idtree ⟨key, data⟩) (hmax : 0 < ix'.maxid ∧ ix'.maxid < uintMod) :
    Inv ix' (⟨key, data⟩ :: es) := by
  have hfree : key ∉ es.map (·.key) := by
    rwa [rbFind_eq_none_iff, h.mem_keys] at hkey
  refine ⟨?_, ?_, ?_, ?_, hmax⟩
  · rw [htree, rbInsertEntry]
    simp only [hkey, Option.isSome_none, Bool.false_eq_true, if_false]
    exact h.perm.cons _
  · exact nodup_cons.mpr ⟨hfree, h.keys⟩
  · exact nodup_cons.mpr ⟨hdata, h.datas⟩
  · intro e he
    rcases mem_cons.mp he with rfl | he
    · exact hb
    · exact h.bound e he

/-- `apn_insert_id` with a free 32 bit ID. -/
theorem Inv.insertId (h : Inv ix es) (hkey : rbFind ix.idtree key = none) (hb : 0 < key ∧ key < uintMod)
    (hdata : data ∉ es.map (·.data)) : Inv (apnInsertId ix key data) (⟨key, data⟩ :: es) := by
  refine h.insert hkey hb hdata rfl ?_
  have hm := h.maxid
  simp only [apnInsertId]
  rw [Nat.mod_eq_of_lt hb.2]
  have h10 : 10 < uintMod := by decide
  split_ifs <;> omega

/-- Removing a rule takes its entry out of the index. -/
theorem Inv.remove (h : Inv ix (e :: es)) : Inv { ix with idtree := rbRemoveEntry ix.idtree e.data } es := by
  have hmem : e ∈ ix.idtree := h.perm.mem_iff.mpr mem_cons_self
  have hfind : ix.idtree.find? (fun x => x.data = e.data) = some e := by
    cases hf : ix.idtree.find? (fun x => x.data = e.data) with
    | none => simpa using find?_eq_none.mp hf e hmem
    | some e' =>
      have he' : e' ∈ e :: es := h.perm.mem_iff.mp (mem_of_find?_eq_some hf)
      have hd : e'.data = e.data := by simpa using find?_some hf
      rw [inj_on_of_nodup_map h.datas he' mem_cons_self hd]
  refine ⟨?_, ?_, ?_, ?_, h.maxid⟩
  · exact ((exists_eraseP hfind).symm.trans h.perm).cons_inv
  · exact (nodup_cons.mp h.keys).2
  · exact (nodup_cons.mp h.datas).2
  · exact fun x hx => h.bound x (mem_cons_of_mem _ hx)

theorem Inv.removeAll {ptrs : List IdEntry} : ∀ {ix : Index} {es : List IdEntry}, Inv ix (ptrs ++ es) →
      Inv { ix with idtree := (ptrs.map (·.data)).foldl rbRemoveEntry ix.idtree } es := by
  induction ptrs with
  | nil => intro ix es h; exact h
  | cons e ptrs ih => intro ix es h; exact ih h.remove

/-! ### New IDs -/

theorem randomTries_spec (hm : 0 < maxid) (n : ℕ) :
    ∀ {rnd : Rand} {nid : ℕ}, (randomTries root maxid n rnd).1 = some nid →
      rbFind root nid = none ∧ 0 < nid ∧ nid ≤ maxid := by
  induction n with
  | zero => intro rnd nid h; simp [randomTries] at h
  | succ n ih =>
    intro rnd nid h
    simp only [randomTries] at h
    split at h
    · rename_i hfree
      cases h
      have hlt : (rnd.next.1) % maxid < maxid := Nat.mod_lt _ hm
      exact ⟨by simpa using hfree, by omega, by omega⟩
    · exact ih h

/-- The random search keeps `maxid` within its type and finds IDs that are free and not 0. -/
theorem randomLoop_spec (root : List IdEntry) (n : ℕ) : ∀ {maxid : ℕ} (rnd : Rand), 0 < maxid → maxid < uintMod →
      (0 < (randomLoop root n maxid rnd).2.1 ∧ (randomLoop root n maxid rnd).2.1 < uintMod) ∧
      ∀ nid, (randomLoop root n maxid rnd).1 = some nid → rbFind root nid = none ∧ 0 < nid ∧ nid < uintMod := by
  induction n with
  | zero => intro maxid rnd h0 h1; exact ⟨⟨h0, h1⟩, by simp [randomLoop]⟩
  | succ n ih =>
    intro maxid rnd h0 h1
    rw [randomLoop]
    cases ht : randomTries root maxid 20 rnd with
    | mk found rnd' =>
      cases found with
      | some nid =>
        refine ⟨⟨h0, h1⟩, fun nid' hn => ?_⟩
        cases hn
        obtain ⟨hfree, hpos, hle⟩ := randomTries_spec h0 20 (by rw [ht])
        exact ⟨hfree, hpos, lt_of_le_of_lt hle h1⟩
      | none =>
        simp only
        split
        · exact ih rnd' (by omega) (Nat.mod_lt _ (by decide))
        · exact ⟨⟨h0, h1⟩, by simp⟩

/-- The linear search stops at the latest at a free ID above its start. -/
theorem linearSearch_spec {k : ℕ} (hk : k < maxid) (hfree : rbFind root k = none) (n : ℕ) :
    ∀ {start : ℕ}, start ≤ k → k - start < n →
      ∃ nid, linearSearch root maxid n start = some nid ∧ start ≤ nid ∧ nid ≤ k ∧ rbFind root nid = none := by
  induction n with
  | zero => intro start _ hn; omega
  | succ n ih =>
    intro start hle hn
    rw [linearSearch]
    cases hf : rbFind root start with
    | none => exact ⟨start, by simp, le_refl _, hle, hf⟩
    | some e =>
      have hne : start ≠ k := by
        rintro rfl
        rw [hfree] at hf
        cases hf
      have hmod : (start + 1) % maxid = start + 1 := Nat.mod_eq_of_lt (by omega)
      obtain ⟨nid, hs, hge, hrest⟩ := @ih (start + 1) (by omega) (by omega)
      exact ⟨nid, by simpa [hmod] using hs, by omega, hrest⟩

/-- `apn_assign_id` at address `e` goes well: a random ID is found, or the linear search starts above 0
    and there is a free ID before it wraps around. -/
def AssignOk (ix : Index) (e : ℕ) : Prop :=
  (randomLoop ix.idtree 32 ix.maxid ix.rnd).1.isSome ∨
    0 < e % (randomLoop ix.idtree 32 ix.maxid ix.rnd).2.1 ∧
    ∃ k, e % (randomLoop ix.idtree 32 ix.maxid ix.rnd).2.1 ≤ k ∧
      k < (randomLoop ix.idtree 32 ix.maxid ix.rnd).2.1 ∧ rbFind ix.idtree k = none

theorem Inv.assign (h : Inv ix es) {e : ℕ} (he : e ∉ es.map (·.data)) (hok : AssignOk ix e) :
    ∃ nid ix', apnAssignId ix e = some (nid, ix') ∧ Inv ix' (⟨nid, e⟩ :: es) := by
  obtain ⟨hm, hfound⟩ := randomLoop_spec ix.idtree 32 ix.rnd h.maxid.1 h.maxid.2
  rw [apnAssignId, if_neg (by have := h.maxid.1; omega)]
  rw [AssignOk] at hok
  generalize randomLoop ix.idtree 32 ix.maxid ix.rnd = res at hm hfound hok
  obtain ⟨found, maxid, rnd⟩ := res
  cases found with
  | some nid =>
    obtain ⟨hfree, hb⟩ := hfound nid rfl
    exact ⟨nid, _, rfl, h.insert hfree hb he rfl hm⟩
  | none =>
    obtain ⟨hpos, k, hle, hk, hfree⟩ := hok.resolve_left (by simp)
    simp only at hpos hle hk hm
    obtain ⟨nid, hs, hge, hlek, hnfree⟩ := linearSearch_spec hk hfree maxid hle (by omega)
    refine ⟨nid, ⟨rbInsertEntry ix.idtree ⟨nid, e⟩, maxid, rnd⟩, by simp [hs], ?_⟩
    refine h.insert hnfree ⟨?_, ?_⟩ he rfl hm
    · exact lt_of_lt_of_le hpos hge
    · exact lt_of_le_of_lt hlek (hk.trans hm.2)

/-! ### Chains and blocks -/

def Rule.entry (r : Rule) : IdEntry := ⟨r.id, r.ptr⟩

/-- The entries of a block: the block itself and the rules of its chain. -/
def Block.entries (b : Block) : List IdEntry := ⟨b.id, b.ptr⟩ :: b.chain.map Rule.entry

def queueEntries (q : List Block) : List IdEntry := q.flatMap Block.entries

/-- The addresses of a block and its rules. -/
def Block.ptrs (b : Block) : List ℕ := b.ptr :: b.chain.map (·.ptr)

/-- Every assignment for the rules of a chain goes well. -/
def ChainOk (sel : ℕ → Bool) : Index → List Rule → Prop
  | _, [] => True
  | ix, r :: chain =>
    if sel r.id then AssignOk ix r.ptr ∧
      ∀ nid ix', apnAssignId ix r.ptr = some (nid, ix') → ChainOk sel ix' chain
    else ChainOk sel ix chain

/-- The entries that get no new ID. -/
def keeps (sel : ℕ → Bool) (es : List IdEntry) : List IdEntry := es.filter (fun e => !sel e.key)

theorem keeps_data_subset (sel : ℕ → Bool) (es : List IdEntry) : (keeps sel es).map (·.data) ⊆ es.map (·.data) :=
  (filter_sublist.map _).subset

theorem map_data_entry (chain : List Rule) : (chain.map Rule.entry).map (·.data) = chain.map (·.ptr) := by
  rw [map_map]
  rfl

/-- Rules that get no new ID are in the index before, all rules of the chain are in it after. -/
theorem Inv.assignChain {chain : List Rule} : ∀ {ix : Index} {es : List IdEntry},
    Inv ix (keeps sel (chain.map Rule.entry) ++ es) → ChainOk sel ix chain →
    (chain.map (·.ptr) ++ es.map (·.data)).Nodup →
    ∃ chain' ix', Apn.assignChain sel ix chain = some (chain', ix') ∧
      Inv ix' (chain'.map Rule.entry ++ es) ∧ chain'.map (·.ptr) = chain.map (·.ptr) := by
  induction chain with
  | nil => intro ix es h _ _; exact ⟨[], ix, rfl, h, rfl⟩
  | cons r chain ih =>
    intro ix es h hok hnd
    have hnd' := nodup_middle.mpr hnd
    rw [ChainOk] at hok
    cases hsel : sel r.id with
    | true =>
      simp only [hsel, if_true] at hok
      simp only [keeps, map_cons, Rule.entry, hsel, filter_cons, Bool.not_true, Bool.false_eq_true, if_false] at h
      have hnot : r.ptr ∉ (keeps sel (chain.map Rule.entry) ++ es).map (·.data) := by
        rw [map_append]
        intro hmem
        refine (nodup_cons.mp hnd).1 ?_
        rcases mem_append.mp hmem with hmem | hmem
        · rw [← map_data_entry]
          exact mem_append_left _ (keeps_data_subset sel _ hmem)
        · exact mem_append_right _ hmem
      obtain ⟨nid, ix1, ha, hinv⟩ := h.assign hnot hok.1
      have hinv1 : Inv ix1 (keeps sel (chain.map Rule.entry) ++ (⟨nid, r.ptr⟩ :: es)) :=
        hinv.of_perm perm_middle.symm
      obtain ⟨chain', ix', hc, hinv', hptr⟩ := ih hinv1 (hok.2 nid ix1 ha) hnd'
      refine ⟨{ r with id := nid } :: chain', ix', ?_, ?_, ?_⟩
      · simp [Apn.assignChain, hsel, ha, hc]
      · exact hinv'.of_perm perm_middle
      · simp [hptr]
    | false =>
      simp only [hsel, Bool.false_eq_true, if_false] at hok
      simp only [keeps, map_cons, Rule.entry, hsel, filter_cons, Bool.not_false, if_true, cons_append] at h
      have hinv1 : Inv ix (keeps sel (chain.map Rule.entry) ++ (r.entry :: es)) :=
        h.of_perm perm_middle.symm
      obtain ⟨chain', ix', hc, hinv', hptr⟩ := ih hinv1 hok hnd'
      refine ⟨r :: chain', ix', ?_, ?_, ?_⟩
      · simp [Apn.assignChain, hsel, hc]
      · exact hinv'.of_perm perm_middle
      · simp [hptr]

/-- Every assignment for a block goes well. -/
def BlockOk (sel : ℕ → Bool) (ix : Index) (b : Block) : Prop :=
  ChainOk sel ix b.chain ∧ ∀ chain ix', Apn.assignChain sel ix b.chain = some (chain, ix') →
    sel b.id = true → AssignOk ix' b.ptr

theorem Inv.assignBlock {b : Block} (h : Inv ix (keeps sel b.entries ++ es)) (hok : BlockOk sel ix b)
    (hnd : (b.ptrs ++ es.map (·.data)).Nodup) :
    ∃ b' ix', Apn.assignBlock sel ix b = some (b', ix') ∧ Inv ix' (b'.entries ++ es) ∧
      b'.ptrs = b.ptrs ∧ b'.kind = b.kind := by
  have hnd' := nodup_middle.mpr hnd
  cases hsel : sel b.id with
  | true =>
    have hchain : Inv ix (keeps sel (b.chain.map Rule.entry) ++ es) := by
      simpa [keeps, Block.entries, hsel] using h
    have hnds : (b.chain.map (·.ptr) ++ es.map (·.data)).Nodup := (nodup_cons.mp hnd).2
    obtain ⟨chain', ix1, hc, hinv, hptr⟩ := hchain.assignChain hok.1 hnds
    have hnot : b.ptr ∉ (chain'.map Rule.entry ++ es).map (·.data) := by
      rw [map_append, map_data_entry, hptr]
      exact (nodup_cons.mp hnd).1
    obtain ⟨nid, ix', ha, hinv'⟩ := hinv.assign hnot (hok.2 chain' ix1 hc hsel)
    refine ⟨{ b with id := nid, chain := chain' }, ix', ?_, ?_, ?_, rfl⟩
    · simp [Apn.assignBlock, hc, hsel, ha]
    · exact hinv'
    · simp [Block.ptrs, hptr]
  | false =>
    have hchain : Inv ix (keeps sel (b.chain.map Rule.entry) ++ (⟨b.id, b.ptr⟩ :: es)) := by
      refine Inv.of_perm ?_ perm_middle.symm
      simpa [keeps, Block.entries, hsel] using h
    obtain ⟨chain', ix1, hc, hinv, hptr⟩ := hchain.assignChain hok.1 hnd'
    refine ⟨{ b with chain := chain' }, ix1, ?_, ?_, ?_, rfl⟩
    · simp [Apn.assignBlock, hc, hsel]
    · exact hinv.of_perm perm_middle
    · simp [Block.ptrs, hptr]

end Anoubis.Apn

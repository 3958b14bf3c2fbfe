import Anoubis.Apn.Path
import Anoubis.Apn.Types
import Anoubis.Lib.Select

/-! Candidate preselection (`pe_prefixhash.c`, `pe_build_prefixhash` in `pe.c`).

    The rules of a block are filed under the hash of their path prefix. For an event only the slots
    of the prefixes of its path are looked up; the entries found are sorted by rule index and
    duplicates dropped.

        path /a/b/c   ->   slots of "", "/a/b/c", "/", "/a/b", "/a"   ->   sort, drop duplicates

    The hash function is a parameter of everything but `hashFn`: no result depends on it. -/

namespace Anoubis.Pe

open Anoubis.Apn Anoubis.Lib List

/-- `struct entry`. -/
structure Entry where
  rule : Rule
  idx : ℕ

/-- `struct pe_prefixhash`; a slot is the list of its entries. -/
structure Prefixhash where
  tabsize : ℕ
  tab : ℕ → List Entry

/-- PREFIXHASH_MASK. -/
def prefixhashMask : ℕ := 2 ^ 24 - 1

/-- A byte as `char`, sign extended to `unsigned long`. -/
def charWord (c : Char) : BitVec 64 := (BitVec.ofNat 8 c.toNat).signExtend 64

/-- `hash_fn` on the bytes of `data`. -/
def hashFn (data : Text) : ℕ :=
  let mask : BitVec 64 := BitVec.ofNat 64 prefixhashMask
  let ret : BitVec 64 := data.foldl (fun ret c =>
    let ret := (ret <<< 1) ^^^ charWord c
    (ret ^^^ (ret >>> 24)) &&& mask) 0
  (ret &&& mask).toNat

/-- The table size `pe_prefixhash_create` settles on. -/
def clampTabsize (tabsize : ℕ) : ℕ :=
  max 10 (if prefixhashMask < tabsize then prefixhashMask + 1 else tabsize)

/-- `pe_prefixhash_create`. -/
def pePrefixhashCreate (tabsize : ℕ) : Prefixhash := ⟨clampTabsize tabsize, fun _ => []⟩

variable (hash : Text → ℕ)

/-- `pe_prefixhash_add`: append to the slot of the prefix. -/
def pePrefixhashAdd (h : Prefixhash) (str : Option Text) (rule : Rule) (idx : ℕ) : Prefixhash :=
  let hv := hash (str.getD []) % h.tabsize
  { h with tab := fun v => if v = hv then h.tab v ++ [⟨rule, idx⟩] else h.tab v }

/-- `addslot`: the entries in the slot of the first `len` bytes of `str`. -/
def addslot (h : Prefixhash) (str : Text) (len : ℕ) : List Entry :=
  h.tab (hash (str.take len) % h.tabsize)

/-- `while (len) { if (str[len] == '/') addslot(…, str, len); len--; }`. -/
def scanSlashes (h : Prefixhash) (str : Text) : ℕ → List Entry
  | 0 => []
  | len + 1 =>
    (if str[len + 1]? = some '/' then addslot hash h str (len + 1) else []) ++
      scanSlashes h str len

/-- Copy the sorted entries, skipping one whose index equals that of the entry before it. -/
def dropDuplicates : Option ℕ → List Entry → List Entry
  | _, [] => []
  | prev, e :: es =>
    if prev = some e.idx then dropDuplicates (some e.idx) es
    else e :: dropDuplicates (some e.idx) es

/-- `cmp_entries`: the order of `qsort`. -/
def cmpEntries (a b : Entry) : Bool := a.idx ≤ b.idx

/-- The tail of `pe_prefixhash_getrules`: sort by index and drop duplicates. -/
def collect (es : List Entry) : List Entry := dropDuplicates none (es.mergeSort cmpEntries)

/-- The slots `pe_prefixhash_getrules` looks at. -/
def lookup (h : Prefixhash) : Option Text → List Entry
  | none => addslot hash h [] 0
  | some str => addslot hash h [] 0 ++ addslot hash h str str.length ++ addslot hash h str 1 ++
      scanSlashes hash h str str.length

/-- `str && str[0] != '/'`. -/
def isRelative : Option Text → Bool
  | some s => s.head? ≠ some '/'
  | none => false

/-- `pe_prefixhash_getrules`. -/
def pePrefixhashGetrules (h : Prefixhash) (str : Option Text) : Except ℕ (List Rule) :=
  if isRelative str then .error einval
  else .ok ((collect (lookup hash h str)).map (·.rule))

/-- The prefix under which `pe_build_prefixhash` files a rule; the other rule types are an error. -/
def rulePrefix : Body → Option (Option Text)
  | .sfsAccess path .. => some path
  | .sfsDefault path .. => some path
  | .default _ => some none
  | .sbAccess path .. => some path
  | _ => none

/-- The loop of `pe_build_prefixhash`. -/
def buildLoop : Prefixhash → ℕ → List Rule → Except ℕ Prefixhash
  | h, _, [] => .ok h
  | h, idx, r :: rs =>
    match rulePrefix r.body with
    | none => .error einval
    | some pfx => buildLoop (pePrefixhashAdd hash h pfx r idx) (idx + 1) rs

/-- `pe_build_prefixhash`. -/
def peBuildPrefixhash (chain : List Rule) : Except ℕ Prefixhash :=
  buildLoop hash (pePrefixhashCreate chain.length) 1 chain

/-- Rules that can apply to an event with the given path. -/
def applies (path : Option Text) (r : Rule) : Bool :=
  match rulePrefix r.body with
  | none => false
  | some pfx => prefixApplies pfx path

/-! ### What the table holds -/

/-- The chain with the indices `pe_build_prefixhash` gives its rules. -/
def number : ℕ → List Rule → List Entry
  | _, [] => []
  | i, r :: rs => ⟨r, i⟩ :: number (i + 1) rs

theorem number_map_rule (rs : List Rule) : ∀ i, (number i rs).map (·.rule) = rs := by
  induction rs with
  | nil => intro i; rfl
  | cons r rs ih => intro i; simp [number, ih]

variable {rs : List Rule} {l : List Entry} {str : Text}

theorem le_idx_of_mem_number : ∀ {i : ℕ} {e : Entry}, e ∈ number i rs → i ≤ e.idx := by
  induction rs with
  | nil => intro i e h; simp [number] at h
  | cons r rs ih =>
    intro i e h
    rcases mem_cons.mp h with rfl | h
    · exact le_rfl
    · have := ih h; omega

/-- Indices increase along the chain. -/
theorem number_pairwise (rs : List Rule) : ∀ i, (number i rs).Pairwise (fun a b => a.idx < b.idx) := by
  induction rs with
  | nil => intro i; exact List.Pairwise.nil
  | cons r rs ih =>
    intro i
    refine pairwise_cons.mpr ⟨fun e he => ?_, ih (i + 1)⟩
    have hle := le_idx_of_mem_number he
    show i < e.idx
    omega

theorem eq_of_idx_eq (hl : l.Pairwise (fun a b => a.idx < b.idx)) {a b : Entry} (ha : a ∈ l) (hb : b ∈ l)
    (h : a.idx = b.idx) : a = b := by
  induction l with
  | nil => simp at ha
  | cons e l ih =>
    rw [pairwise_cons] at hl
    rcases mem_cons.mp ha with rfl | ha'
    · rcases mem_cons.mp hb with rfl | hb'
      · rfl
      · have := hl.1 b hb'; omega
    · rcases mem_cons.mp hb with rfl | hb'
      · have := hl.1 a ha'; omega
      · exact ih hl.2 ha' hb'

/-- The slot number of a rule. -/
def slotOf (n : ℕ) (r : Rule) : ℕ := hash (((rulePrefix r.body).getD none).getD []) % n

/-- Each slot of the finished table holds its rules in chain order. -/
theorem buildLoop_tab : ∀ {h h' : Prefixhash} {i : ℕ}, buildLoop hash h i rs = .ok h' → h'.tabsize = h.tabsize ∧
      ∀ v, h'.tab v = h.tab v ++ (number i rs).filter (fun e => slotOf hash h.tabsize e.rule = v) := by
  induction rs with
  | nil =>
    intro h h' i hb
    simp only [buildLoop, Except.ok.injEq] at hb
    subst hb
    exact ⟨rfl, fun v => by simp [number]⟩
  | cons r rs ih =>
    intro h h' i hb
    rw [buildLoop] at hb
    cases hp : rulePrefix r.body with
    | none => simp [hp] at hb
    | some pfx =>
      simp only [hp] at hb
      obtain ⟨hsize, htab⟩ := ih hb
      have hslot : slotOf hash h.tabsize r = hash (pfx.getD []) % h.tabsize := by
        simp [slotOf, hp]
      refine ⟨hsize, fun v => ?_⟩
      rw [htab v, number]
      simp only [pePrefixhashAdd]
      by_cases hv : v = hash (pfx.getD []) % h.tabsize
      · rw [if_pos hv, filter_cons_of_pos (by simp [hslot, hv]), append_assoc, singleton_append]
        rfl
      · rw [if_neg hv, filter_cons_of_neg (by simpa [hslot] using fun h => hv h.symm)]
        rfl

variable {e : Entry} {es : List Entry} {path : Option Text}

/-- Only entries of the chain are ever found. -/
theorem mem_scanSlashes {h : Prefixhash} :
    ∀ {n : ℕ}, e ∈ scanSlashes hash h str n ↔
      ∃ len, 0 < len ∧ len ≤ n ∧ str[len]? = some '/' ∧ e ∈ addslot hash h str len := by
  intro n
  induction n with
  | zero =>
    simp only [scanSlashes, not_mem_nil, false_iff, not_exists]
    omega
  | succ n ih =>
    rw [scanSlashes, mem_append, ih]
    constructor
    · rintro (h1 | ⟨len, h0, hle, hs, he⟩)
      · split at h1
        · rename_i hs
          exact ⟨n + 1, by omega, le_rfl, hs, h1⟩
        · simp at h1
      · exact ⟨len, h0, by omega, hs, he⟩
    · rintro ⟨len, h0, hle, hs, he⟩
      rcases lt_or_ge n len with hlt | hge
      · obtain rfl : len = n + 1 := by omega
        rw [if_pos hs]
        exact .inl he
      · exact .inr ⟨len, h0, hge, hs, he⟩

/-! ### Sorting and duplicates -/

theorem mem_of_mem_dropDuplicates : ∀ {prev : Option ℕ} {e : Entry}, e ∈ dropDuplicates prev es → e ∈ es := by
  induction es with
  | nil => intro prev e h; simp [dropDuplicates] at h
  | cons a es ih =>
    intro prev e h
    rw [dropDuplicates] at h
    split at h
    · exact mem_cons_of_mem _ (ih h)
    · rcases mem_cons.mp h with rfl | h
      · exact mem_cons_self
      · exact mem_cons_of_mem _ (ih h)

/-- In a sorted list only entries with the index `prev` or with the index of another entry are
    dropped. -/
theorem exists_mem_dropDuplicates :
    ∀ (prev : Option ℕ) {e : Entry}, e ∈ es → prev ≠ some e.idx →
      ∃ e' ∈ dropDuplicates prev es, e'.idx = e.idx := by
  induction es with
  | nil => intro prev e h; simp at h
  | cons a es ih =>
    intro prev e h hp
    rw [dropDuplicates]
    by_cases hae : a.idx = e.idx
    · rw [if_neg (by rwa [hae])]
      exact ⟨a, mem_cons_self, hae⟩
    · have hmem : e ∈ es := by
        rcases mem_cons.mp h with rfl | h
        · exact absurd rfl hae
        · exact h
      obtain ⟨e', he', hidx⟩ := ih (some a.idx) hmem (by simpa using hae)
      split
      · exact ⟨e', he', hidx⟩
      · exact ⟨e', mem_cons_of_mem _ he', hidx⟩

theorem dropDuplicates_pairwise (hs : es.Pairwise (fun a b => a.idx ≤ b.idx)) :
    ∀ prev : Option ℕ, (∀ n, prev = some n → ∀ e ∈ es, n ≤ e.idx) →
      (dropDuplicates prev es).Pairwise (fun a b => a.idx < b.idx) ∧
        ∀ n, prev = some n → ∀ e ∈ dropDuplicates prev es, n < e.idx := by
  induction es with
  | nil => intro prev _; exact ⟨List.Pairwise.nil, by simp [dropDuplicates]⟩
  | cons a es ih =>
    intro prev hprev
    rw [pairwise_cons] at hs
    obtain ⟨hpw, hlt⟩ := ih hs.2 (some a.idx) (fun n hn e he => by
      rw [Option.some.injEq] at hn
      exact hn ▸ hs.1 e he)
    rw [dropDuplicates]
    split
    · rename_i heq
      refine ⟨hpw, fun n hn e he => ?_⟩
      rw [heq, Option.some.injEq] at hn
      exact hn ▸ hlt a.idx rfl e he
    · rename_i hne
      refine ⟨pairwise_cons.mpr ⟨fun e he => hlt a.idx rfl e he, hpw⟩, fun n hn e he => ?_⟩
      have hle := hprev n hn a mem_cons_self
      have hna : n ≠ a.idx := fun h => hne (by rw [hn, h])
      rcases mem_cons.mp he with rfl | he
      · omega
      · have := hlt a.idx rfl e he; omega

/-- Entries of a numbered chain, sorted and without duplicates, are a selection from it. -/
theorem collect_spec (es : List Entry) (hl : l.Pairwise (fun a b => a.idx < b.idx)) (hes : ∀ e ∈ es, e ∈ l) :
    (collect es).Pairwise (fun a b => a.idx < b.idx) ∧ ∀ e, e ∈ collect es ↔ e ∈ es := by
  have htrans : ∀ a b c, cmpEntries a b = true → cmpEntries b c = true → cmpEntries a c = true := by
    intro a b c hab hbc
    simp only [cmpEntries, decide_eq_true_eq] at hab hbc ⊢
    omega
  have htotal : ∀ a b, (cmpEntries a b || cmpEntries b a) = true := by
    intro a b
    simp only [cmpEntries, Bool.or_eq_true, decide_eq_true_eq]
    omega
  have hsort : (es.mergeSort cmpEntries).Pairwise (fun a b => a.idx ≤ b.idx) := by
    refine (pairwise_mergeSort htrans htotal es).imp fun h => ?_
    simpa [cmpEntries] using h
  refine ⟨(dropDuplicates_pairwise hsort none (by simp)).1, fun e => ⟨fun h => ?_, fun h => ?_⟩⟩
  · exact mem_mergeSort.mp (mem_of_mem_dropDuplicates h)
  · obtain ⟨e', he', hidx⟩ := exists_mem_dropDuplicates none (mem_mergeSort.mpr h) (by simp)
    have hmem : e' ∈ es := mem_mergeSort.mp (mem_of_mem_dropDuplicates he')
    rwa [← eq_of_idx_eq hl (hes e' hmem) (hes e h) hidx]

/-! ### The candidates -/

/-- The prefixes of the rules of a chain are absent or canonical. -/
def CanonicalPrefixes (chain : List Rule) : Prop :=
  ∀ r ∈ chain, ∀ p, rulePrefix r.body = some (some p) → Canonical p

variable {chain : List Rule} {n : ℕ} {h : Prefixhash}

section

variable (hb : buildLoop hash ⟨n, fun _ => []⟩ 1 chain = .ok h)
include hb

theorem mem_addslot {len : ℕ} :
    e ∈ addslot hash h str len ↔ e ∈ number 1 chain ∧ slotOf hash n e.rule = hash (str.take len) % n := by
  obtain ⟨hsize, htab⟩ := buildLoop_tab hash hb
  rw [addslot, htab, hsize]
  simp [mem_filter]

/-- Every entry found belongs to the chain. -/
theorem mem_number_of_mem_lookup (he : e ∈ lookup hash h path) : e ∈ number 1 chain := by
  cases path with
  | none => exact ((mem_addslot hash hb).mp he).1
  | some str =>
    simp only [lookup, mem_append] at he
    rcases he with ((h1 | h1) | h1) | h1
    · exact ((mem_addslot hash hb).mp h1).1
    · exact ((mem_addslot hash hb).mp h1).1
    · exact ((mem_addslot hash hb).mp h1).1
    · obtain ⟨len, -, -, -, h2⟩ := (mem_scanSlashes hash).mp h1
      exact ((mem_addslot hash hb).mp h2).1

/-- Every rule that can apply is found in the slot of its own prefix. -/
theorem mem_lookup_of_applies (hc : CanonicalPrefixes chain) (hp : isRelative path = false) (he : e ∈ number 1 chain)
    (ha : applies path e.rule = true) : e ∈ lookup hash h path := by
  have hr : e.rule ∈ chain := by
    rw [← number_map_rule chain 1]
    exact mem_map_of_mem he
  rw [applies] at ha
  cases hpf : rulePrefix e.rule.body with
  | none => simp [hpf] at ha
  | some pfx =>
    simp only [hpf] at ha
    have hslot : slotOf hash n e.rule = hash (pfx.getD []) % n := by simp [slotOf, hpf]
    cases pfx with
    | none =>
      have hnil : e ∈ addslot hash h [] 0 := (mem_addslot hash hb).mpr ⟨he, by simpa using hslot⟩
      cases path with
      | none => exact hnil
      | some str => simp [lookup, hnil]
    | some p =>
      cases path with
      | none => simp [prefixApplies] at ha
      | some str =>
        have hcan := hc _ hr p hpf
        have hfound : ∀ len, str.take len = p → e ∈ addslot hash h str len := fun len hlen =>
          (mem_addslot hash hb).mpr ⟨he, by rw [hlen]; exact hslot⟩
        simp only [lookup, mem_append]
        rcases pathMatch_cases hcan ha with rfl | rfl | ⟨htake, hslash⟩
        · -- the root prefix is the first byte of every absolute path
          refine .inl (.inr (hfound 1 ?_))
          simp only [isRelative, ne_eq, decide_not, Bool.not_eq_false', decide_eq_true_eq] at hp
          cases str with
          | nil => simp at hp
          | cons a str => simpa using hp
        · exact .inl (.inl (.inr (hfound _ take_length)))
        · refine .inr ((mem_scanSlashes hash).mpr ⟨p.length, ?_, ?_, hslash, hfound _ htake⟩)
          · have := hcan.head
            cases p <;> simp_all
          · have := List.getElem?_eq_some_iff.mp hslash
            obtain ⟨hlt, -⟩ := this
            omega

/-- The candidates are a selection from the chain that keeps every rule that can apply. -/
theorem getrules_selects (hc : CanonicalPrefixes chain) (hp : isRelative path = false) :
    ∃ out, pePrefixhashGetrules hash h path = .ok out ∧ Selects (applies path) chain out := by
  have hpw := number_pairwise chain 1
  obtain ⟨hcpw, hmem⟩ := collect_spec (lookup hash h path) hpw (fun e he => mem_number_of_mem_lookup hash hb he)
  have hasym : ∀ a b : Entry, a.idx < b.idx → ¬ b.idx < a.idx := fun a b h1 h2 => by omega
  refine ⟨_, by rw [pePrefixhashGetrules, if_neg (by simp [hp])], ⟨?_, ?_⟩⟩
  · have hsub := sublist_of_pairwise hasym hcpw hpw fun e he =>
      mem_number_of_mem_lookup hash hb ((hmem e).mp he)
    have hmap := hsub.map (·.rule)
    rwa [number_map_rule] at hmap
  · have hsub : ((number 1 chain).filter (fun e => applies path e.rule)).Sublist
        (collect (lookup hash h path)) := by
      refine sublist_of_pairwise hasym (hpw.sublist filter_sublist) hcpw fun e he => ?_
      obtain ⟨he1, he2⟩ := mem_filter.mp he
      exact (hmem e).mpr (mem_lookup_of_applies hash hb hc hp he1 he2)
    have hmap := hsub.map (·.rule)
    have hfilter : ((number 1 chain).filter (fun e => applies path e.rule)).map (·.rule) =
        chain.filter (applies path) := by
      have h2 := filter_map (p := applies path) (f := (·.rule)) (l := number 1 chain)
      rw [number_map_rule] at h2
      exact h2.symm
    rwa [hfilter] at hmap

end

end Anoubis.Pe

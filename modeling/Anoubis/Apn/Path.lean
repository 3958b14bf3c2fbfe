import Anoubis.Basic
import Mathlib.Data.List.DropRight

/-! Path names: normalisation in the parser and prefix matching in the policy engine.

    `normalize_path` (`parse.y`) rewrites a path in place with a read and a write index. The write
    index never overtakes the read index, so the copied part is kept apart here, reversed. In terms
    of components it is a stack machine: empty and `.` components are dropped, `..` pops.

        /usr//lib/./x/../y   ->   push usr, push lib, push x, pop, push y   ->   /usr/lib/y  -/

namespace Anoubis.Apn

open List

/-- The next character is a slash or the end of the string. -/
def atEnd (s : Text) : Bool := s.head? = none || s.head? = some '/'

/-- `while (dst) { dst--; if (path[dst] == '/') break; }` on the reversed copy. -/
def popComponent (out : Text) : Text := (out.dropWhile (· ≠ '/')).tail

/-- The main loop of `normalize_path`; `fuel` bounds the number of rounds by the length of `src`. -/
def normLoop : ℕ → Text → Text → Text
  | 0, out, _ => out
  | _ + 1, out, [] => out
  | fuel + 1, out, c :: src =>
    if c ≠ '/' then normLoop fuel (c :: out) src
    else if atEnd src then normLoop fuel out src
    else if src.head? = some '.' ∧ atEnd (src.drop 1) then normLoop fuel out (src.drop 1)
    else if src.head? = some '.' ∧ (src.drop 1).head? = some '.' ∧ atEnd (src.drop 2) then
      normLoop fuel (popComponent out) (src.drop 2)
    else normLoop fuel ('/' :: out) src

/-- `normalize_path`: `none` is the error for a path that is not absolute. -/
def normalizePath (path : Text) : Option Text :=
  if path.head? ≠ some '/' then none
  else
    let out := normLoop path.length [] path
    let out := if out.head? = some '/' then out.tail else out
    let out := if out = [] then ['/'] else out
    some out.reverse

/-! ### Components -/

/-- Every component with a slash in front. -/
def joinSlash (cs : List Text) : Text := cs.flatMap ('/' :: ·)

/-- The absolute path with the given components. -/
def render (cs : List Text) : Text := if cs = [] then ['/'] else joinSlash cs

/-- One component on the stack machine. -/
def pushComp (stack : List Text) (c : Text) : List Text :=
  if c = [] ∨ c = ['.'] then stack
  else if c = ['.', '.'] then stack.dropLast
  else stack ++ [c]

/-- A component that stays in a normalised path. -/
def GoodComp (c : Text) : Prop := c ≠ [] ∧ '/' ∉ c ∧ c ≠ ['.'] ∧ c ≠ ['.', '.']

/-- A normalised absolute path. -/
def Canonical (p : Text) : Prop := ∃ cs, p = render cs ∧ ∀ c ∈ cs, GoodComp c

@[simp] theorem joinSlash_nil : joinSlash [] = [] := rfl

@[simp] theorem joinSlash_cons (c : Text) (cs : List Text) : joinSlash (c :: cs) = '/' :: (c ++ joinSlash cs) := rfl

@[simp] theorem joinSlash_append (cs ds : List Text) : joinSlash (cs ++ ds) = joinSlash cs ++ joinSlash ds := by
  simp [joinSlash]

theorem atEnd_joinSlash (cs : List Text) : atEnd (joinSlash cs) = true := by
  cases cs <;> simp [atEnd]

variable {c p : Text} {cs : List Text}

/-- A component ends where the joined rest begins. -/
theorem atEnd_append (hc : '/' ∉ c) {rest : Text} (hr : atEnd rest = true) : atEnd (c ++ rest) = true ↔ c = [] := by
  cases c with
  | nil => simpa using hr
  | cons a c =>
    have ha : a ≠ '/' := fun h => hc (h ▸ mem_cons_self)
    simp [atEnd, ha]

/-- Characters of a component are copied. -/
theorem normLoop_copy (hc : '/' ∉ c) (rest : Text) :
    ∀ (fuel : ℕ) (out : Text), c.length ≤ fuel →
      normLoop fuel out (c ++ rest) = normLoop (fuel - c.length) (c.reverse ++ out) rest := by
  induction c with
  | nil => intro fuel out _; simp
  | cons a c ih =>
    intro fuel out hf
    rw [mem_cons, not_or] at hc
    obtain ⟨fuel, rfl⟩ : ∃ k, fuel = k + 1 := ⟨fuel - 1, by simp at hf; omega⟩
    rw [cons_append, normLoop, if_pos (fun h => hc.1 h.symm),
      ih hc.2 fuel (a :: out) (by simpa using hf)]
    simp

/-- Popping a component off the reversed copy. -/
theorem popComponent_joinSlash {stack : List Text} (hs : ∀ c ∈ stack, '/' ∉ c) :
    popComponent (joinSlash stack).reverse = (joinSlash stack.dropLast).reverse := by
  rcases eq_nil_or_concat stack with rfl | ⟨pre, c, rfl⟩
  · rfl
  · have hc : '/' ∉ c := hs c (by simp)
    have hall : ∀ x ∈ c.reverse, decide (x ≠ '/') = true := by
      intro x hx
      rw [decide_eq_true_iff]
      rintro rfl
      exact hc (mem_reverse.mp hx)
    simp only [concat_eq_append, joinSlash_append, joinSlash_cons, joinSlash_nil,
      append_nil, reverse_append, reverse_cons, append_assoc,
      dropLast_concat, popComponent]
    rw [dropWhile_append_of_pos (fun x hx => hall x hx)]
    simp

/-- The stack machine adds nothing to the characters of the components. -/
theorem pushComp_notMem {x : Char} {stack : List Text} (hs : ∀ c ∈ stack, x ∉ c) (hc : x ∉ c) :
    ∀ d ∈ pushComp stack c, x ∉ d := by
  intro d hd
  simp only [pushComp] at hd
  split at hd
  · exact hs d hd
  · split at hd
    · exact hs d ((dropLast_sublist _).subset hd)
    · rcases mem_append.mp hd with h | h
      · exact hs d h
      · rw [mem_singleton.mp h]
        exact hc

/-- A component that is pushed is none of the special cases of the loop. -/
theorem special_of_head {rest : Text} (hc : '/' ∉ c) (hr : atEnd rest = true)
    (hdot : (c ++ rest).head? = some '.') : ∃ c', c = '.' :: c' := by
  cases c with
  | nil =>
    simp only [nil_append] at hdot
    simp [atEnd, hdot] at hr
  | cons a c' => exact ⟨c', by simpa using hdot⟩

/-- The loop of `normalize_path` is the stack machine on components. -/
theorem normLoop_join : ∀ (cs stack : List Text) (fuel : ℕ), (∀ c ∈ cs, '/' ∉ c) →
    (∀ c ∈ stack, '/' ∉ c) → (joinSlash cs).length ≤ fuel → normLoop fuel (joinSlash stack).reverse (joinSlash cs) =
      (joinSlash (cs.foldl pushComp stack)).reverse := by
  intro cs
  induction cs with
  | nil =>
    intro stack fuel _ _ _
    cases fuel <;> rfl
  | cons c cs ih =>
    intro stack fuel hcs hs hf
    have hc : '/' ∉ c := hcs c mem_cons_self
    have hcs' : ∀ d ∈ cs, '/' ∉ d := fun d hd => hcs d (mem_cons_of_mem _ hd)
    have hend := atEnd_joinSlash cs
    simp only [joinSlash_cons, length_cons, length_append] at hf
    obtain ⟨fuel, rfl⟩ : ∃ k, fuel = k + 1 := ⟨fuel - 1, by omega⟩
    rw [joinSlash_cons, normLoop, if_neg (not_not_intro rfl), foldl_cons]
    have hih := ih (pushComp stack c) (fuel - c.length) hcs' (pushComp_notMem hs hc) (by omega)
    by_cases h0 : c = []
    · subst h0
      rw [if_pos (by simpa using hend)]
      simpa [pushComp] using hih
    rw [if_neg (by simpa [atEnd_append hc hend] using h0)]
    by_cases h1 : c = ['.']
    · subst h1
      rw [if_pos ⟨rfl, by simpa using hend⟩]
      exact ih stack fuel hcs' hs (by simp at hf; omega)
    have hone : ¬ ((c ++ joinSlash cs).head? = some '.' ∧
        atEnd ((c ++ joinSlash cs).drop 1) = true) := by
      rintro ⟨hd, ha⟩
      obtain ⟨c', rfl⟩ := special_of_head hc hend hd
      have hc' : '/' ∉ c' := fun h => hc (mem_cons_of_mem _ h)
      have hnil : c' = [] := (atEnd_append hc' hend).mp (by simpa using ha)
      exact h1 (by rw [hnil])
    rw [if_neg hone]
    by_cases h2 : c = ['.', '.']
    · subst h2
      rw [if_pos ⟨rfl, rfl, by simpa using hend⟩, popComponent_joinSlash hs]
      have hpop : pushComp stack ['.', '.'] = stack.dropLast := rfl
      rw [hpop]
      exact ih stack.dropLast fuel hcs' (fun d hd => hs d ((dropLast_sublist _).subset hd))
        (by simp at hf; omega)
    have htwo : ¬ ((c ++ joinSlash cs).head? = some '.' ∧ ((c ++ joinSlash cs).drop 1).head? = some '.' ∧
        atEnd ((c ++ joinSlash cs).drop 2) = true) := by
      rintro ⟨hd, hd', ha⟩
      obtain ⟨c', rfl⟩ := special_of_head hc hend hd
      have hc' : '/' ∉ c' := fun h => hc (mem_cons_of_mem _ h)
      obtain ⟨c'', rfl⟩ := special_of_head hc' hend (by simpa using hd')
      have hc'' : '/' ∉ c'' := fun h => hc' (mem_cons_of_mem _ h)
      have hnil : c'' = [] := (atEnd_append hc'' hend).mp (by simpa using ha)
      exact h2 (by rw [hnil])
    have hpush : pushComp stack c = stack ++ [c] := by simp [pushComp, h0, h1, h2]
    rw [if_neg htwo, normLoop_copy hc _ _ _ (by omega)]
    rw [hpush] at hih ⊢
    rw [← hih]
    simp

/-! ### Normal forms -/

/-- The components of an absolute path. -/
theorem exists_joinSlash : ∀ p : Text, ∃ c cs, p = c ++ joinSlash cs ∧ '/' ∉ c ∧ ∀ d ∈ cs, '/' ∉ d
  | [] => ⟨[], [], rfl, by simp, by simp⟩
  | a :: p => by
      obtain ⟨c, cs, rfl, hc, hcs⟩ := exists_joinSlash p
      by_cases ha : a = '/'
      · subst ha
        refine ⟨[], c :: cs, rfl, by simp, ?_⟩
        intro d hd
        rcases mem_cons.mp hd with rfl | h
        · exact hc
        · exact hcs d h
      · exact ⟨a :: c, cs, rfl, by simp [Ne.symm ha, hc], hcs⟩

/-- Folding the stack machine leaves good components only. -/
theorem goodComp_foldl (hcs : ∀ c ∈ cs, '/' ∉ c) :
    ∀ stack : List Text, (∀ c ∈ stack, GoodComp c) → ∀ c ∈ cs.foldl pushComp stack, GoodComp c := by
  induction cs with
  | nil => intro stack hs; exact hs
  | cons c cs ih =>
    intro stack hs
    refine ih (fun d hd => hcs d (mem_cons_of_mem _ hd)) _ ?_
    intro d hd
    simp only [pushComp] at hd
    split at hd
    · exact hs d hd
    · rename_i h1
      split at hd
      · exact hs d ((dropLast_sublist _).subset hd)
      · rename_i h2
        rcases mem_append.mp hd with h | h
        · exact hs d h
        · rw [mem_singleton.mp h]
          rw [not_or] at h1
          exact ⟨h1.1, hcs c mem_cons_self, h1.2, h2⟩

/-- Good components are all pushed. -/
theorem foldl_pushComp_good (hcs : ∀ c ∈ cs, GoodComp c) :
    ∀ stack : List Text, cs.foldl pushComp stack = stack ++ cs := by
  induction cs with
  | nil => intro stack; simp
  | cons c cs ih =>
    intro stack
    have hc := hcs c mem_cons_self
    have hpush : pushComp stack c = stack ++ [c] := by
      simp [pushComp, hc.1, hc.2.2.1, hc.2.2.2]
    rw [foldl_cons, hpush, ih (fun d hd => hcs d (mem_cons_of_mem _ hd))]
    simp

/-- A joined path of good components does not end in a slash. -/
theorem joinSlash_getLast (hcs : ∀ c ∈ cs, GoodComp c) : (joinSlash cs).getLast? ≠ some '/' := by
  rcases eq_nil_or_concat cs with rfl | ⟨pre, c, rfl⟩
  · simp
  · obtain ⟨hne, hns, -⟩ := hcs c (by simp)
    rw [concat_eq_append, joinSlash_append, joinSlash_cons, joinSlash_nil, append_nil,
      getLast?_append_cons, getLast?_cons, Ne, Option.some.injEq]
    intro h
    rw [getLast?_eq_some_getLast hne, Option.getD_some] at h
    exact hns (h ▸ getLast_mem hne)

/-- `normalize_path` in terms of components. -/
theorem normalizePath_join (hcs : ∀ d ∈ c :: cs, '/' ∉ d) :
    normalizePath (joinSlash (c :: cs)) = some (render ((c :: cs).foldl pushComp [])) := by
  have hrun := normLoop_join (c :: cs) [] _ hcs (by simp) le_rfl
  have hgood := goodComp_foldl hcs [] (by simp)
  have hlast := joinSlash_getLast hgood
  rw [normalizePath, if_neg (by simp)]
  simp only [joinSlash_nil, reverse_nil] at hrun
  simp only [hrun, head?_reverse, if_neg hlast, reverse_eq_nil_iff, render]
  generalize (c :: cs).foldl pushComp [] = ds
  cases ds with
  | nil => rfl
  | cons d ds => simp

/-- What `normalize_path` accepts is rewritten to a canonical path. -/
theorem normalizePath_canonical {q : Text} (h : normalizePath p = some q) : Canonical q := by
  obtain ⟨c, cs, rfl, hc, hcs⟩ := exists_joinSlash p
  cases c with
  | cons a c =>
    have ha : a ≠ '/' := fun h => hc (h ▸ mem_cons_self)
    simp [normalizePath, ha] at h
  | nil =>
    cases cs with
    | nil => simp [normalizePath] at h
    | cons c cs =>
      rw [nil_append, normalizePath_join hcs, Option.some.injEq] at h
      exact ⟨_, h.symm, goodComp_foldl hcs [] (by simp)⟩

/-- Canonical paths are left alone. -/
theorem normalizePath_of_canonical (h : Canonical p) : normalizePath p = some p := by
  obtain ⟨cs, rfl, hcs⟩ := h
  cases cs with
  | nil => rfl
  | cons c cs =>
    have hr : render (c :: cs) = joinSlash (c :: cs) := rfl
    rw [hr, normalizePath_join (fun d hd => (hcs d hd).2.1), foldl_pushComp_good hcs,
      nil_append, hr]

theorem Canonical.head (h : Canonical p) : p.head? = some '/' := by
  obtain ⟨cs, rfl, -⟩ := h
  cases cs <;> rfl

theorem Canonical.last (h : Canonical p) : p = ['/'] ∨ p.getLast? ≠ some '/' := by
  obtain ⟨cs, rfl, hcs⟩ := h
  cases cs with
  | nil => exact .inl rfl
  | cons c cs => exact .inr (joinSlash_getLast hcs)

/-! ### Prefixes -/

/-- `while (len && prefix[len-1] == '/') len--`. -/
def stripSlashes (p : Text) : Text := p.rdropWhile (· = '/')

/-- The prefix test of the evaluators: the path starts with the prefix (less trailing slashes) and
    goes on with a slash or ends there. -/
def pathMatch (pfx path : Text) : Bool :=
  (stripSlashes pfx).isPrefixOf path && atEnd (path.drop (stripSlashes pfx).length)

/-- A rule without prefix applies to every event, one with a prefix only to matching paths. -/
def prefixApplies : Option Text → Option Text → Bool
  | none, _ => true
  | some _, none => false
  | some p, some path => pathMatch p path

theorem stripSlashes_of_last (h : p.getLast? ≠ some '/') : stripSlashes p = p := by
  rw [stripSlashes, rdropWhile_eq_self_iff]
  intro hne hlast
  rw [decide_eq_true_iff] at hlast
  exact h (by rw [getLast?_eq_some_getLast hne, hlast])

/-- A canonical prefix that matches is the root, the path itself, or a proper prefix of the path in
    front of a slash. -/
theorem pathMatch_cases {path : Text} (hp : Canonical p) (h : pathMatch p path = true) :
    p = ['/'] ∨ p = path ∨ path.take p.length = p ∧ path[p.length]? = some '/' := by
  rcases hp.last with rfl | hlast
  · exact .inl rfl
  · right
    rw [pathMatch, stripSlashes_of_last hlast, Bool.and_eq_true, isPrefixOf_iff_prefix] at h
    obtain ⟨⟨t, rfl⟩, hend⟩ := h
    rw [drop_left, atEnd] at hend
    cases t with
    | nil => exact .inl (by simp)
    | cons a t => exact .inr ⟨by simp, by simpa using hend⟩

end Anoubis.Apn

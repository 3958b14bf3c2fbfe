import Anoubis.Apn.Path
import Anoubis.Lib.Checked
import Mathlib.Logic.Relation

/-! Path normalisation in place.

    `normalize_path` (`parse.y`) overwrites the path that it reads. What it has written stands in front of the write
    index, what it has not read yet behind the read index, and what is left between them is garbage:

        / u s r / l i b / x x x / . . / y 0
        written       ▲ dst     ▲ src

    The look-ahead ends at the NUL at the latest, and the write index never passes the read index, so the loop does
    what `normLoop` does on two strings. -/

namespace Anoubis.Apn

open Option

open Anoubis.Lib List

/-! ### The loop -/

/-- The byte at the end of a string. -/
def nul : Char := '\x00'

/-- `path[i] == c`. -/
def isAt (buf : Text) (i : ℕ) (c : Char) : Check := buf[i]?.map fun x => decide (x = c)

/-- `path[i] == '/' || path[i] == 0`. -/
def endsAt (buf : Text) (i : ℕ) : Check := buf[i]?.map fun x => decide (x = '/' ∨ x = nul)

/-- `a && b`. -/
def andAlso (a b : Check) : Check := a.bind fun holds => if holds then b else some false

/-- `path[i] = c`. -/
def storeAt (buf : Text) (i : ℕ) (c : Char) : Option Text := if i < buf.length then some (buf.set i c) else none

/-- The path in memory, the read and the write index. -/
structure Cursor where
  buf : Text
  src : ℕ
  dst : ℕ

/-- `path[dst++] = path[src++]`. -/
def Cursor.copy (p : Cursor) : Option Cursor := do
  let c ← p.buf[p.src]?
  let buf ← storeAt p.buf p.dst c
  pure ⟨buf, p.src + 1, p.dst + 1⟩

/-- The loop that takes a component back. -/
def stepBack (buf : Text) : ℕ → Option ℕ
  | 0 => some 0
  | dst + 1 => (isAt buf dst '/').bind fun slash => if slash then some dst else stepBack buf dst

/-- The body of the loop; `none` is an access outside of the buffer. -/
def Cursor.round (p : Cursor) : Option Cursor := do
  let slash ← isAt p.buf p.src '/'
  if slash = false then p.copy
  else
    -- consecutive and trailing slashes
    let skip ← endsAt p.buf (p.src + 1)
    if skip then pure { p with src := p.src + 1 }
    else
      -- `/./`, and `/.` at the end
      let dot ← andAlso (isAt p.buf (p.src + 1) '.') (endsAt p.buf (p.src + 2))
      if dot then pure { p with src := p.src + 2 }
      else
        -- `/../`, and `/..` at the end
        let dotdot ← andAlso (isAt p.buf (p.src + 1) '.')
          (andAlso (isAt p.buf (p.src + 2) '.') (endsAt p.buf (p.src + 3)))
        if dotdot then do
          let dst ← stepBack p.buf p.dst
          pure { p with src := p.src + 3, dst := dst }
        else p.copy

/-- The loop; `fuel` bounds the number of rounds by the length of the buffer. -/
def normLoopAt : ℕ → Cursor → Option Cursor
  | 0, _ => none
  | fuel + 1, p => do
    let stop ← isAt p.buf p.src nul
    if stop then pure p
    else
      let p ← p.round
      normLoopAt fuel p

/-- What follows the loop. -/
def Cursor.finish (p : Cursor) : Option Text := do
  let trailing ← andAlso (some (decide (p.dst ≠ 0))) (isAt p.buf (p.dst - 1) '/')
  let dst := if trailing then p.dst - 1 else p.dst
  if dst = 0 then
    let buf ← storeAt p.buf 0 '/'
    storeAt buf 1 nul
  else storeAt p.buf dst nul

/-- `normalize_path`: the buffer behind the call, or the error for a path that is not absolute; `none` is an access
    outside of the buffer. -/
def normalizePathAt (buf : Text) : Option (Option Text) := do
  let slash ← isAt buf 0 '/'
  if slash = false then pure none
  else
    let p ← normLoopAt buf.length ⟨buf, 0, 0⟩
    let buf ← p.finish
    pure (some buf)

/-- The positions in the course of the loop. -/
def Reached (buf : Text) : Cursor → Prop :=
  Relation.ReflTransGen (fun p p' => isAt p.buf p.src nul = some false ∧ p.round = some p') ⟨buf, 0, 0⟩

/-- The string at the start of the buffer. -/
def textAt (buf : Text) : Text := buf.takeWhile (· ≠ nul)

/-! ### Two strings in one buffer -/

/-- What is written and what is not read yet of a buffer of `n` bytes; behind the NUL it goes on with `rest`. -/
structure Halves (n : ℕ) (p : Cursor) (out inp rest : Text) : Prop where
  size : p.buf.length = n
  le : p.dst ≤ p.src
  dst : p.dst = out.length
  written : p.buf.take p.dst = out.reverse
  unread : p.buf.drop p.src = inp ++ nul :: rest
  noNul : nul ∉ inp

section Reading

variable {n : ℕ} {p : Cursor} {out inp rest : Text} {c : Char}

section

variable (h : Halves n p out inp rest)
include h

theorem Halves.getElem? (k : ℕ) : p.buf[p.src + k]? = (inp ++ nul :: rest)[k]? := by
  rw [← h.unread, getElem?_drop]

/-- The look-ahead, up to the NUL. -/
theorem Halves.ahead {k : ℕ} (hk : k ≤ inp.length) : p.buf[p.src + k]? = some ((inp.drop k).head?.getD nul) := by
  rw [h.getElem?]
  rcases Nat.lt_or_eq_of_le hk with hlt | rfl
  · rw [getElem?_append_left hlt, head?_drop, getElem?_eq_getElem hlt, getD_some]
  · rw [getElem?_append_right le_rfl, Nat.sub_self, drop_length]
    rfl

theorem Halves.head_ne {k : ℕ} : (inp.drop k).head? ≠ some nul := by
  intro hk
  exact h.noNul (mem_of_mem_drop (mem_of_mem_head? hk))

theorem Halves.isAt {k : ℕ} (hk : k ≤ inp.length) (hc : c ≠ nul) :
    isAt p.buf (p.src + k) c = some (decide ((inp.drop k).head? = some c)) := by
  rw [Apn.isAt, h.ahead hk, map_some]
  cases hd : (inp.drop k).head? with
  | none => simp [hc.symm]
  | some x => simp

theorem Halves.endsAt {k : ℕ} (hk : k ≤ inp.length) : endsAt p.buf (p.src + k) = some (atEnd (inp.drop k)) := by
  rw [Apn.endsAt, h.ahead hk, map_some, atEnd]
  cases hd : (inp.drop k).head? with
  | none => simp
  | some x =>
    have hx : x ≠ nul := fun hx => h.head_ne (hx ▸ hd)
    simp [hx]

theorem Halves.stop : Apn.isAt p.buf p.src nul = some (decide (inp = [])) := by
  have h0 := h.ahead (Nat.zero_le _)
  rw [add_zero, drop_zero] at h0
  rw [Apn.isAt, h0, map_some]
  cases inp with
  | nil => rfl
  | cons x inp =>
    have hx : x ≠ nul := fun hx => h.noNul (hx ▸ mem_cons_self)
    simp [hx]

theorem Halves.length : p.src + inp.length < p.buf.length := by
  have hl := congrArg List.length h.unread
  simp only [length_drop, length_append, length_cons] at hl
  omega

/-- Nothing but the read index moves. -/
theorem Halves.skip (k : ℕ) (hk : k ≤ inp.length) : Halves n { p with src := p.src + k } out (inp.drop k) rest := by
  refine ⟨h.size, Nat.le_add_right_of_le h.le, h.dst, h.written, ?_, fun hc => h.noNul (mem_of_mem_drop hc)⟩
  rw [← drop_drop, h.unread, drop_append_of_le_length hk]

end

/-- A byte is copied. -/
theorem Halves.copy (h : Halves n p out (c :: inp) rest) : ∃ p', p.copy = some p' ∧ Halves n p' (c :: out) inp rest := by
  have hlen := h.length
  have hle := h.le
  have hc : p.buf[p.src]? = some c := by simpa using h.getElem? 0
  have hlt : p.dst < p.buf.length := by omega
  refine ⟨⟨p.buf.set p.dst c, p.src + 1, p.dst + 1⟩, ?_, ?_⟩
  · rw [Cursor.copy, hc, bind_eq_bind, bind_some, storeAt, if_pos hlt]
    rfl
  · refine ⟨by rw [length_set, h.size], Nat.succ_le_succ hle, congrArg (· + 1) h.dst, ?_, ?_, fun hn => h.noNul (mem_cons_of_mem _ hn)⟩
    · rw [take_add_one, take_set_of_le le_rfl, getElem?_set_self hlt, h.written, reverse_cons]
      rfl
    · rw [drop_set_of_lt (Nat.lt_succ_of_le hle)]
      exact (h.skip 1 (by simp)).unread

/-- The last component that is written is taken back. -/
theorem stepBack_eq {buf : Text} : ∀ {out : Text}, buf.take out.length = out.reverse → out.length ≤ buf.length →
    stepBack buf out.length = some (popComponent out).length ∧
      buf.take (popComponent out).length = (popComponent out).reverse
  | [], _, _ => ⟨rfl, rfl⟩
  | c :: out, ht, hl => by
    rw [length_cons] at ht hl
    have hc : buf[out.length]? = some c := by
      have := congrArg (·[out.length]?) ht
      simpa [getElem?_take] using this
    have ht' : buf.take out.length = out.reverse := by
      have := congrArg (List.take out.length) ht
      simpa [take_take] using this
    rw [length_cons, stepBack, Apn.isAt, hc, map_some, bind_some]
    by_cases hs : c = '/'
    · have hpop : popComponent (c :: out) = out := by simp [popComponent, hs]
      rw [hpop, if_pos (decide_eq_true hs)]
      exact ⟨rfl, ht'⟩
    · have hpop : popComponent (c :: out) = popComponent out := by simp [popComponent, hs]
      rw [hpop, if_neg (by simpa using hs)]
      exact stepBack_eq ht' (by omega)

theorem length_popComponent_le (out : Text) : (popComponent out).length ≤ out.length := by
  rw [popComponent, length_tail]
  have := (dropWhile_suffix (· ≠ '/') (l := out)).length_le
  omega

/-- A round of the loop is one of `normLoop`. -/
theorem Halves.round (h : Halves n p out (c :: inp) rest) : ∃ p' out' inp', p.round = some p' ∧
    Halves n p' out' inp' rest ∧ inp'.length ≤ inp.length ∧
      ∀ fuel, normLoop (fuel + 1) out (c :: inp) = normLoop fuel out' inp' := by
  have h1 : 1 ≤ (c :: inp).length := Nat.succ_le_succ (Nat.zero_le _)
  have hslash : Apn.isAt p.buf p.src '/' = some (decide (c = '/')) := by
    simpa using h.isAt (k := 0) (Nat.zero_le _) (show '/' ≠ nul by decide)
  obtain ⟨pc, hcopy, hpc⟩ := h.copy
  rw [Cursor.round, hslash]
  simp only [bind_eq_bind, bind_some, decide_eq_false_iff_not]
  by_cases hc : c = '/'
  case neg =>
    rw [if_pos hc]
    exact ⟨pc, c :: out, inp, hcopy, hpc, le_rfl, fun fuel => by rw [normLoop, if_pos hc]⟩
  rw [if_neg (not_not_intro hc), h.endsAt h1, bind_some, drop_one, tail_cons]
  by_cases hend : atEnd inp = true
  · rw [if_pos hend]
    refine ⟨_, out, inp, rfl, h.skip 1 h1, le_rfl, fun fuel => ?_⟩
    rw [normLoop, if_neg (not_not_intro hc), if_pos hend]
  rw [if_neg hend, h.isAt h1 (by decide), drop_one, tail_cons, andAlso, andAlso, bind_some, bind_some]
  by_cases hdot : inp.head? = some '.'
  case neg =>
    rw [decide_eq_false hdot]
    refine ⟨pc, c :: out, inp, hcopy, hpc, le_rfl, fun fuel => ?_⟩
    rw [normLoop, if_neg (not_not_intro hc), if_neg hend, if_neg (fun h => hdot h.1), if_neg (fun h => hdot h.1), hc]
  obtain ⟨inp, rfl⟩ : ∃ inp', inp = '.' :: inp' := ⟨inp.tail, (cons_head?_tail hdot).symm⟩
  have h2 : 2 ≤ (c :: '.' :: inp).length := by simp
  rw [decide_eq_true hdot, if_pos rfl, if_pos rfl, h.endsAt h2, bind_some]
  simp only [drop_succ_cons, drop_zero]
  by_cases hend2 : atEnd inp = true
  · rw [if_pos hend2]
    refine ⟨_, out, inp, rfl, h.skip 2 h2, by simp, fun fuel => ?_⟩
    rw [normLoop, if_neg (not_not_intro hc), if_neg hend, if_pos ⟨rfl, hend2⟩]
    rfl
  rw [if_neg hend2, h.isAt h2 (by decide), andAlso, bind_some]
  simp only [drop_succ_cons, drop_zero]
  by_cases hdot2 : inp.head? = some '.'
  case neg =>
    rw [decide_eq_false hdot2]
    refine ⟨pc, c :: out, '.' :: inp, hcopy, hpc, le_rfl, fun fuel => ?_⟩
    rw [normLoop, if_neg (not_not_intro hc), if_neg hend, if_neg (fun h => hend2 h.2), if_neg (fun h => hdot2 h.2.1), hc]
  obtain ⟨inp, rfl⟩ : ∃ inp', inp = '.' :: inp' := ⟨inp.tail, (cons_head?_tail hdot2).symm⟩
  have h3 : 3 ≤ (c :: '.' :: '.' :: inp).length := by simp
  rw [decide_eq_true hdot2, if_pos rfl, h.endsAt h3, bind_some]
  simp only [drop_succ_cons, drop_zero]
  by_cases hend3 : atEnd inp = true
  · have hlen := h.length
    have hle := h.le
    have hdst := h.dst
    have hback := stepBack_eq (hdst ▸ h.written) (by omega)
    have hpop := length_popComponent_le out
    rw [if_pos hend3, hdst, hback.1, bind_some]
    refine ⟨_, popComponent out, inp, rfl, ?_, by simp; omega, fun fuel => ?_⟩
    · have hskip := h.skip 3 h3
      exact ⟨h.size, by dsimp only; omega, rfl, hback.2, hskip.unread, hskip.noNul⟩
    · rw [normLoop, if_neg (not_not_intro hc), if_neg hend, if_neg (fun h => hend2 h.2), if_pos ⟨rfl, rfl, hend3⟩]
      rfl
  · rw [if_neg hend3]
    refine ⟨pc, c :: out, _, hcopy, hpc, le_rfl, fun fuel => ?_⟩
    rw [normLoop, if_neg (not_not_intro hc), if_neg hend, if_neg (fun h => hend2 h.2), if_neg (fun h => hend3 h.2.2), hc]

/-- The loop ends, with the result of `normLoop`. -/
theorem Halves.loop : ∀ {fuel fuel' : ℕ} {p : Cursor} {out inp : Text}, Halves n p out inp rest → inp.length < fuel →
    inp.length ≤ fuel' → ∃ p', normLoopAt fuel p = some p' ∧ Halves n p' (normLoop fuel' out inp) [] rest := by
  intro fuel
  induction fuel with
  | zero => exact fun _ hf => absurd hf (Nat.not_lt_zero _)
  | succ fuel ih =>
    intro fuel' p out inp h hf hf'
    rw [normLoopAt, h.stop]
    cases inp with
    | nil =>
      have hout : normLoop fuel' out [] = out := by cases fuel' <;> rfl
      exact ⟨p, rfl, hout.symm ▸ h⟩
    | cons c inp =>
      obtain ⟨fuel', rfl⟩ : ∃ k, fuel' = k + 1 := ⟨fuel' - 1, by simp at hf'; omega⟩
      obtain ⟨p', out', inp', hround, h', hlen, hnorm⟩ := h.round
      obtain ⟨p'', hloop, h''⟩ := ih h' (by simp at hf; omega) (show inp'.length ≤ fuel' by simp at hf'; omega)
      refine ⟨p'', ?_, hnorm fuel' ▸ h''⟩
      rw [bind_eq_bind, bind_some, if_neg (by simp), hround]
      exact hloop

end Reading

/-! ### The result -/

section Result

variable {path rest : Text}

theorem halves_start (h0 : nul ∉ path) :
    Halves (path.length + rest.length + 1) ⟨path ++ nul :: rest, 0, 0⟩ [] path rest :=
  ⟨length_append, le_rfl, rfl, rfl, rfl, h0⟩

/-- Every position is one of two strings in the buffer. -/
theorem Reached.halves (h0 : nul ∉ path) {p : Cursor} (h : Reached (path ++ nul :: rest) p) :
    ∃ out inp, Halves (path.length + rest.length + 1) p out inp rest := by
  induction h with
  | refl => exact ⟨[], path, halves_start h0⟩
  | tail _ hstep ih =>
    obtain ⟨out, inp, h⟩ := ih
    obtain ⟨hgo, hround⟩ := hstep
    cases inp with
    | nil => simp [h.stop] at hgo
    | cons c inp =>
      obtain ⟨p', out', inp', hround', h', -⟩ := h.round
      cases hround.symm.trans hround'
      exact ⟨out', inp', h'⟩

/-- The slash before the write index. -/
theorem Halves.trailing {n : ℕ} {p : Cursor} {out inp : Text} (h : Halves n p out inp rest) :
    andAlso (some (decide (p.dst ≠ 0))) (Apn.isAt p.buf (p.dst - 1) '/') = some (decide (out.head? = some '/')) := by
  have hd := h.dst
  cases out with
  | nil => simp [andAlso, hd]
  | cons c out =>
    rw [length_cons] at hd
    have hc : p.buf[out.length]? = some c := by
      have := congrArg (·[out.length]?) h.written
      simpa [hd, getElem?_take] using this
    simp [andAlso, Apn.isAt, hd, hc]

/-- The end of the function, behind the loop. -/
theorem Halves.finish {n : ℕ} {p : Cursor} {out : Text} (h : Halves n p out [] rest) (hn : 2 ≤ n) : ∃ rest',
    p.finish = some ((if (if out.head? = some '/' then out.tail else out) = [] then ['/']
      else if out.head? = some '/' then out.tail else out).reverse ++ nul :: rest') := by
  have hsize := h.size
  have hlen := h.length
  have hle := h.le
  have hdst := h.dst
  have hw := h.written
  obtain ⟨out', hout', hd', hw', hle'⟩ : ∃ out', (if out.head? = some '/' then out.tail else out) = out' ∧
      (if decide (out.head? = some '/') = true then p.dst - 1 else p.dst) = out'.length ∧
      p.buf.take out'.length = out'.reverse ∧ out'.length ≤ p.dst := by
    by_cases hs : out.head? = some '/'
    · obtain ⟨out, rfl⟩ : ∃ o, out = '/' :: o := ⟨out.tail, (cons_head?_tail hs).symm⟩
      refine ⟨out, by simp, by simp [hdst], ?_, by simp [hdst]⟩
      have := congrArg (List.take out.length) hw
      simpa [hdst, take_take] using this
    · exact ⟨out, by rw [if_neg hs], by simp [hs, hdst], hdst ▸ hw, le_of_eq hdst.symm⟩
  rw [hout', Cursor.finish, h.trailing, bind_eq_bind, bind_some, hd']
  cases out' with
  | nil =>
    obtain ⟨a, b, buf, hbuf⟩ : ∃ a b buf, p.buf = a :: b :: buf := by
      rcases hb : p.buf with _ | ⟨a, _ | ⟨b, buf⟩⟩
      · simp [hb] at hlen
      · simp [hb] at hsize; omega
      · exact ⟨a, b, buf, rfl⟩
    exact ⟨buf, by simp [hbuf, storeAt]⟩
  | cons c out' =>
    have hlt : (c :: out').length < p.buf.length := by omega
    refine ⟨p.buf.drop ((c :: out').length + 1), ?_⟩
    rw [if_neg (by simp), if_neg (by simp), storeAt, if_pos hlt, set_eq_take_append_cons_drop, if_pos hlt, hw']

/-- In place or not, the result is the same. -/
theorem normalizePathAt_eq (h0 : nul ∉ path) {q : Text} (h : normalizePath path = some q) :
    ∃ rest', normalizePathAt (path ++ nul :: rest) = some (some (q ++ nul :: rest')) := by
  rw [normalizePath] at h
  split at h
  · cases h
  rename_i hhead
  cases h
  obtain ⟨path, rfl⟩ : ∃ path', path = '/' :: path' := ⟨path.tail, (cons_head?_tail (not_not.mp hhead)).symm⟩
  have hstart : Halves _ ⟨'/' :: path ++ nul :: rest, 0, 0⟩ [] ('/' :: path) rest := halves_start h0
  have hfuel : ('/' :: path).length < ('/' :: path ++ nul :: rest).length := by simp
  obtain ⟨p, hloop, hp⟩ := hstart.loop hfuel le_rfl
  obtain ⟨rest', hfinish⟩ := hp.finish (by simp; omega)
  have hslash : isAt ('/' :: path ++ nul :: rest) 0 '/' = some true := rfl
  refine ⟨rest', ?_⟩
  rw [normalizePathAt, hslash, bind_eq_bind, bind_some, if_neg (by simp), hloop, bind_eq_bind, bind_some, hfinish]
  rfl

/-- The path that is meant: its components on the stack machine. -/
def canonicalPath (path : Text) : Text := render ((path.splitOn '/').foldl pushComp [])

/-- The components of a path with slashes in front of them. -/
theorem splitOn_joinSlash {c : Text} (hc : '/' ∉ c) : ∀ {cs : List Text}, (∀ d ∈ cs, '/' ∉ d) →
    (c ++ joinSlash cs).splitOn '/' = c :: cs
  | [], _ => by rw [joinSlash_nil, append_nil, splitOn_eq_singleton hc]
  | d :: cs, hcs => by
    rw [joinSlash_cons, splitOn_append_cons_self_of_not_mem hc,
      splitOn_joinSlash (hcs d mem_cons_self) fun e he => hcs e (mem_cons_of_mem _ he)]

/-- `normalize_path` in terms of the components of the path. -/
theorem normalizePath_eq (h : path.head? = some '/') : normalizePath path = some (canonicalPath path) := by
  obtain ⟨c, cs, rfl, hc, hcs⟩ := exists_joinSlash path
  cases c with
  | cons a c => simp_all
  | nil =>
    cases cs with
    | nil => simp at h
    | cons c cs =>
      rw [canonicalPath, splitOn_joinSlash hc hcs, nil_append, normalizePath_join hcs]
      rfl

/-- The components of the result. -/
theorem Canonical.components {p : Text} (h : Canonical p) :
    p = ['/'] ∨ ∀ c ∈ (p.splitOn '/').tail, c ≠ [] ∧ c ≠ ['.'] ∧ c ≠ ['.', '.'] := by
  obtain ⟨cs, rfl, hcs⟩ := h
  cases cs with
  | nil => exact .inl rfl
  | cons d cs =>
    right
    have hsplit := splitOn_joinSlash (c := []) (by simp) fun e he => (hcs e he).2.1
    rw [nil_append] at hsplit
    intro c hc
    rw [render, if_neg (cons_ne_nil _ _), hsplit] at hc
    obtain ⟨hne, -, hdot, hdotdot⟩ := hcs c hc
    exact ⟨hne, hdot, hdotdot⟩

theorem foldl_pushComp_notMem {x : Char} : ∀ {cs stack : List Text}, (∀ c ∈ cs, x ∉ c) → (∀ c ∈ stack, x ∉ c) →
    ∀ c ∈ cs.foldl pushComp stack, x ∉ c
  | [], _, _, hs => hs
  | c :: cs, stack, hcs, hs => by
    rw [foldl_cons]
    exact foldl_pushComp_notMem (fun d hd => hcs d (mem_cons_of_mem _ hd))
      (pushComp_notMem hs (hcs c mem_cons_self))

theorem nul_notMem_canonicalPath (h0 : nul ∉ path) : nul ∉ canonicalPath path := by
  obtain ⟨c, cs, rfl, hc, hcs⟩ := exists_joinSlash path
  have hmem : ∀ d ∈ c :: cs, nul ∉ d := by
    intro d hd hn
    rcases mem_cons.mp hd with rfl | hd
    · exact h0 (mem_append_left _ hn)
    · exact h0 (mem_append_right _ (mem_flatMap.mpr ⟨d, hd, mem_cons_of_mem _ hn⟩))
  have hgood := foldl_pushComp_notMem hmem (by simp : ∀ d ∈ ([] : List Text), nul ∉ d)
  rw [canonicalPath, splitOn_joinSlash hc hcs, render]
  split
  · decide
  · intro hn
    obtain ⟨d, hd, hn⟩ := mem_flatMap.mp hn
    rcases mem_cons.mp hn with hn | hn
    · exact absurd hn (by decide)
    · exact hgood d hd hn

theorem textAt_append (h0 : nul ∉ path) (rest : Text) : textAt (path ++ nul :: rest) = path := by
  have hpos : ∀ x ∈ path, decide (x ≠ nul) = true := fun x hx => decide_eq_true fun hn => h0 (hn ▸ hx)
  rw [textAt, takeWhile_append_of_pos hpos]
  simp

/-- `normalize_path` leaves the canonical path in the buffer. -/
theorem normalize_path (path rest : Text) (h0 : nul ∉ path) (h : path.head? = some '/') :
    (∃ buf, normalizePathAt (path ++ nul :: rest) = some (some buf) ∧ textAt buf = canonicalPath path ∧
      ∃ buf', normalizePathAt buf = some (some buf') ∧ textAt buf' = textAt buf) ∧
    (∀ p, Reached (path ++ nul :: rest) p → p.dst ≤ p.src) ∧
    (canonicalPath path).head? = some '/' ∧
    (canonicalPath path = ['/'] ∨ (canonicalPath path).getLast? ≠ some '/' ∧
      ∀ c ∈ ((canonicalPath path).splitOn '/').tail, c ≠ [] ∧ c ≠ ['.'] ∧ c ≠ ['.', '.']) := by
  have hnorm := normalizePath_eq h
  have hcan := normalizePath_canonical hnorm
  have hnul := nul_notMem_canonicalPath h0
  obtain ⟨rest', hrun⟩ := @normalizePathAt_eq path rest h0 _ hnorm
  obtain ⟨rest'', hagain⟩ := @normalizePathAt_eq _ rest' hnul _ (normalizePath_of_canonical hcan)
  refine ⟨⟨_, hrun, textAt_append hnul rest', _, hagain, ?_⟩, fun p hp => ?_, hcan.head, ?_⟩
  · rw [textAt_append hnul, textAt_append hnul]
  · obtain ⟨out, inp, hp⟩ := hp.halves h0
    exact hp.le
  · rcases hcan.components with hroot | hcomps
    · exact .inl hroot
    · exact hcan.last.imp id fun hlast => ⟨hlast, hcomps⟩

end Result

theorem normalize_path_usr : canonicalPath "/usr//./lib/../bin/".toList = "/usr/bin".toList ∧
    ∃ buf, normalizePathAt ("/usr//./lib/../bin/".toList ++ nul :: []) = some (some buf) ∧
      textAt buf = canonicalPath "/usr//./lib/../bin/".toList :=
  have h := (normalize_path "/usr//./lib/../bin/".toList [] (by decide) rfl).1
  ⟨by decide, h.imp fun _ hbuf => ⟨hbuf.1, hbuf.2.1⟩⟩

end Anoubis.Apn

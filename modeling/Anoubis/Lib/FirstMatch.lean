import Mathlib.Data.Nat.Notation

/-! The first match of a rule list with defaults.

    A list is searched for the first element that hits; only if there is none, the first default counts.
    So the order of evaluation is not the order of the list. -/

namespace Anoubis.Lib

open List

variable {α : Type} (hit dflt : α → Bool)

/-- The element that decides. -/
def firstMatch (l : List α) : Option α := (l.find? hit).or (l.find? dflt)

variable {hit dflt} {a : α} {l : List α}

theorem firstMatch_cons_hit (h : hit a = true) : firstMatch hit dflt (a :: l) = some a := by
  simp [firstMatch, h]

theorem of_firstMatch (h : firstMatch hit dflt l = some a) : hit a = true ∨ dflt a = true := by
  rcases Option.or_eq_some_iff.mp h with h | ⟨-, h⟩
  · exact .inl (find?_some h)
  · exact .inr (find?_some h)

/-! ### The order of evaluation

    If only `late` elements are defaults and no late one hits, the deciding element is the first match in
    the order of evaluation: late elements go behind all others. -/

section Order

variable (late : α → Bool)

def evalOrder (l : List α) : List α := l.filter (fun x => !late x) ++ l.filter late

variable {late} (hh : ∀ x, hit x = true → late x = false) (hd : ∀ x, dflt x = true → late x = true)

include hh hd in
/-- Among the early elements only hits count. -/
theorem find?_early (l : List α) : (l.filter fun x => !late x).find? (fun x => hit x || dflt x) = l.find? hit := by
  rw [find?_filter]
  congr 1
  funext x
  cases hl : late x with
  | true =>
    have hx : hit x = false := Bool.eq_false_iff.mpr fun h => by simp [hh x h] at hl
    simp [hx]
  | false =>
    have hx : dflt x = false := Bool.eq_false_iff.mpr fun h => by simp [hd x h] at hl
    simp [hx]

include hh hd in
/-- Among the late elements only defaults count. -/
theorem find?_late (l : List α) : (l.filter late).find? (fun x => hit x || dflt x) = l.find? dflt := by
  rw [find?_filter]
  congr 1
  funext x
  cases hl : late x with
  | true =>
    have hx : hit x = false := Bool.eq_false_iff.mpr fun h => by simp [hh x h] at hl
    simp [hx]
  | false =>
    have hx : dflt x = false := Bool.eq_false_iff.mpr fun h => by simp [hd x h] at hl
    simp [hx]

include hh hd in
theorem firstMatch_eq_find? (l : List α) :
    firstMatch hit dflt l = (evalOrder late l).find? fun x => hit x || dflt x := by
  rw [evalOrder, find?_append, find?_early hh hd, find?_late hh hd, firstMatch]

end Order

/-! ### New elements around an anchor -/

section Splice

variable (late : α → Bool) (pre : List α) (a : α) (post new : List α)

/-- New elements in front of the anchor. Behind a late anchor that is not the last element the others
    go to the end instead. -/
def spliced : List α :=
  if late a = true ∧ post ≠ [] then
    pre ++ new.filter late ++ a :: post ++ new.filter (fun x => !late x)
  else pre ++ new ++ a :: post

/-- The elements that are evaluated before the anchor and are not late. -/
def beforeEarly : List α :=
  pre.filter (fun x => !late x) ++ if late a then post.filter (fun x => !late x) else []

/-- The late elements that are evaluated before the anchor. -/
def beforeLate : List α := if late a then pre.filter late else []

/-- The anchor and what is evaluated after it. -/
def fromAnchor : List α :=
  a :: if late a then post.filter late
    else post.filter (fun x => !late x) ++ (pre.filter late ++ post.filter late)

variable {late pre a post new}

theorem early_of_beforeEarly {x : α} (h : x ∈ beforeEarly late pre a post) : late x = false := by
  rw [beforeEarly, mem_append] at h
  rcases h with h | h
  · simpa using (mem_filter.mp h).2
  · split at h
    · simpa using (mem_filter.mp h).2
    · simp at h

theorem late_of_beforeLate {x : α} (h : x ∈ beforeLate late pre a) : late x = true := by
  rw [beforeLate] at h
  split at h
  · exact (mem_filter.mp h).2
  · simp at h

theorem evalOrder_anchor : evalOrder late (pre ++ a :: post) =
    beforeEarly late pre a post ++ beforeLate late pre a ++ fromAnchor late pre a post := by
  rw [evalOrder, filter_append, filter_append, beforeEarly, beforeLate, fromAnchor]
  cases h : late a <;> simp [h]

theorem evalOrder_spliced (hnew : late a = false → ∀ x ∈ new, late x = false) :
    evalOrder late (spliced late pre a post new) =
      beforeEarly late pre a post ++ new.filter (fun x => !late x) ++ beforeLate late pre a ++
        new.filter late ++ fromAnchor late pre a post := by
  rw [evalOrder, spliced, beforeEarly, beforeLate, fromAnchor]
  cases h : late a with
  | false =>
    have hall : new.filter late = [] := by
      rw [filter_eq_nil_iff]
      intro x hx
      simp [hnew h x hx]
    simp [h, hall]
  | true =>
    by_cases hp : post = []
    · simp [h, hp]
    · have hearly : (new.filter fun x => !late x).filter late = [] := by
        simp [filter_eq_nil_iff]
      have hlate : (new.filter late).filter (fun x => !late x) = [] := by
        simp [filter_eq_nil_iff]
      have hself : ∀ p : α → Bool, (new.filter p).filter p = new.filter p := fun p =>
        filter_eq_self.mpr fun x hx => (mem_filter.mp hx).2
      simp [h, hp, hearly, hlate, hself, -filter_filter]

theorem spliced_perm : (spliced late pre a post new).Perm (pre ++ a :: post ++ new) := by
  rw [spliced]
  split
  · have hsplit : (new.filter late ++ new.filter fun x => !late x).Perm new :=
      filter_append_perm late new
    rw [append_assoc, append_assoc, append_assoc]
    refine List.Perm.append_left pre ?_
    rw [← append_assoc]
    refine (List.Perm.append_right _ perm_append_comm).trans ?_
    rw [append_assoc]
    exact List.Perm.append_left (a :: post) hsplit
  · rw [append_assoc, append_assoc]
    exact List.Perm.append_left pre perm_append_comm

variable (hh : ∀ x, hit x = true → late x = false) (hd : ∀ x, dflt x = true → late x = true)

include hh hd in
theorem firstMatch_anchor : firstMatch hit dflt (pre ++ a :: post) =
    ((beforeEarly late pre a post).find? fun x => hit x || dflt x).or
      (((beforeLate late pre a).find? fun x => hit x || dflt x).or
        ((fromAnchor late pre a post).find? fun x => hit x || dflt x)) := by
  rw [firstMatch_eq_find? hh hd, evalOrder_anchor, find?_append, find?_append, Option.or_assoc]

include hh hd in
/-- Where the new elements come in. -/
theorem firstMatch_spliced (hnew : late a = false → ∀ x ∈ new, late x = false) :
    firstMatch hit dflt (spliced late pre a post new) =
      ((beforeEarly late pre a post).find? fun x => hit x || dflt x).or
        ((new.find? hit).or (((beforeLate late pre a).find? fun x => hit x || dflt x).or
          ((new.find? dflt).or ((fromAnchor late pre a post).find? fun x => hit x || dflt x)))) := by
  rw [firstMatch_eq_find? hh hd, evalOrder_spliced hnew]
  simp only [find?_append, find?_early hh hd, find?_late hh hd, Option.or_assoc]

end Splice

end Anoubis.Lib

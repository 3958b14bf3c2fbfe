import Anoubis.Daemon.Sfs

/-! The components of a path.

        /home//a/        home, a -/

namespace Anoubis.Daemon.Sfs

/-- The part of a path in front of the first slash, and the components behind it. -/
def splitPath : Text → Text × List Text
  | [] => ([], [])
  | c :: s =>
    let (cur, rest) := splitPath s
    if c = '/' then ([], if cur = [] then rest else cur :: rest) else (c :: cur, rest)

/-- The components of a path. -/
def comps (s : Text) : List Text :=
  let (cur, rest) := splitPath s
  if cur = [] then rest else cur :: rest

theorem splitPath_append (s t : Text) :
    splitPath (s ++ '/' :: t) = ((splitPath s).1, (splitPath s).2 ++ comps t) := by
  induction s with
  | nil => simp [splitPath, comps]
  | cons c s ih =>
    rw [List.cons_append, splitPath, ih, splitPath]
    by_cases hc : c = '/'
    · simp only [hc, if_true]
      split <;> rfl
    · simp only [hc, if_false]

theorem comps_append (s t : Text) : comps (s ++ '/' :: t) = comps s ++ comps t := by
  by_cases h : (splitPath s).1 = []
  · rw [comps, splitPath_append, comps.eq_def s]
    simp [h]
  · rw [comps, splitPath_append, comps.eq_def s]
    simp [h]

@[simp] theorem comps_nil : comps [] = [] := rfl

@[simp] theorem comps_slash (t : Text) : comps ('/' :: t) = comps t := comps_append [] t

theorem splitPath_noSlash {c : Text} (hc : '/' ∉ c) : splitPath c = (c, []) := by
  induction c with
  | nil => rfl
  | cons a c ih =>
    rw [splitPath, ih fun h => hc (List.mem_cons_of_mem a h)]
    have ha : a ≠ '/' := fun h => hc (by simp [h])
    simp [ha]

theorem comps_noSlash {c : Text} (hc : '/' ∉ c) (hne : c ≠ []) : comps c = [c] := by
  rw [comps, splitPath_noSlash hc]
  simp [hne]

end Anoubis.Daemon.Sfs

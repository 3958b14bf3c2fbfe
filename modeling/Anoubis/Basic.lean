import Mathlib.Algebra.Group.Int.Defs
import Mathlib.Algebra.Group.Nat.Defs

/-! Shared ground: text, error numbers and the "no user" uid.

    A C string is a `Text`: the list of its bytes up to the terminating NUL, each byte as the
    character with that code. Machine integers are natural numbers; where a width matters the
    definition that uses it reduces explicitly. -/

namespace Anoubis

/-- A byte string. -/
abbrev Text := List Char

/-- The errno values the modelled functions return. -/
def eperm : ℕ := 1
def enoent : ℕ := 2
def esrch : ℕ := 3
def eio : ℕ := 5
def eacces : ℕ := 13
def ebadf : ℕ := 9
def efault : ℕ := 14
def ebusy : ℕ := 16
def eexist : ℕ := 17
def exdev : ℕ := 18
def enomem : ℕ := 12
def einval : ℕ := 22
def efbig : ℕ := 27
def enospc : ℕ := 28
def erange : ℕ := 34

/-- `(uid_t)-1`, the default user. -/
def uidDefault : ℕ := 4294967295

end Anoubis

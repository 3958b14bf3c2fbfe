import Anoubis.Apn.Types
import Mathlib.Data.List.Basic

/-! Policy database, contexts and processes (`pe_user.c`, `pe_context.c`, `pe_proc_internals.h`).

    The database maps a user and a priority to a ruleset; the default user `(uid_t)-1` stands in for
    users without a ruleset of their own. A process carries one active context per priority and, while
    it borrows the context of another process, the saved one. A context refers to its ruleset by
    address and to the blocks that were selected for the process.

        process ─┬─ context[prio]  ──▶ (ruleset, alfrule, sbrule, ctxrule, ident)
                 └─ saved_ctx[prio]                                                   -/

namespace Anoubis.Pe

open Anoubis.Apn

/-- PE_PRIO_ADMIN and PE_PRIO_USER1. -/
inductive Prio where
  | admin
  | user1
  deriving DecidableEq

/-- The order of `for (i = 0; i < PE_PRIO_MAX; i++)`. -/
def Prio.all : List Prio := [.admin, .user1]

/-- An array indexed by priority. -/
structure ByPrio (α : Type) where
  admin : α
  user1 : α
  deriving DecidableEq

variable {α : Type}

def ByPrio.get (v : ByPrio α) : Prio → α
  | .admin => v.admin
  | .user1 => v.user1

def ByPrio.set (v : ByPrio α) (p : Prio) (a : α) : ByPrio α :=
  match p with
  | .admin => { v with admin := a }
  | .user1 => { v with user1 := a }

@[simp] theorem ByPrio.get_set_self (v : ByPrio α) (p : Prio) (a : α) : (v.set p a).get p = a := by
  cases p <;> rfl

@[simp] theorem ByPrio.get_set_ne (v : ByPrio α) {p q : Prio} (a : α) (h : q ≠ p) : (v.set p a).get q = v.get q := by
  cases p <;> cases q <;> first | rfl | exact absurd rfl h

/-- A checksum; the empty list is "no checksum". -/
abbrev Csum := List UInt8

/-- ANOUBIS_CS_LEN. -/
def csLen : ℕ := 32

/-- `struct pe_proc_ident`. -/
structure Ident where
  csum : Csum
  pathhint : Option Text
  deriving DecidableEq

/-- Checksum database and certificates: `sfshash_get_uid`, `sfshash_get_key` and
    `cert_keyid_for_uid`. -/
structure World where
  sfshashGetUid : Option Text → ℕ → Csum
  sfshashGetKey : Option Text → Text → Csum
  certKeyidForUid : ℕ → Option Text

/-- `struct pe_context`. Contexts are never changed once they are built, so sharing by reference
    count is sharing of a value. -/
structure Ctx where
  ruleset : Option ℕ
  alfrule : Option Block
  sbrule : Option Block
  ctxrule : Option Block
  ident : Ident
  deriving DecidableEq

/-- `struct pe_proc`; of the flags only PE_PROC_FLAGS_SECUREEXEC matters for decisions. -/
structure Proc where
  taskCookie : ℕ
  uid : ℕ
  secureexec : Bool
  instances : ℕ
  threads : ℕ
  ident : Ident
  pgid : ℕ
  borrowCookie : ByPrio ℕ
  context : ByPrio (Option Ctx)
  savedCtx : ByPrio (Option Ctx)
  deriving DecidableEq

/-- `pe_proc_get_playgroundid(proc) != 0`. -/
def inPlayground : Option Proc → Bool
  | none => false
  | some p => p.pgid ≠ 0

/-- `pe_proc_get_context`. -/
def peProcGetContext (proc : Option Proc) (prio : Prio) : Option Ctx :=
  proc.bind (fun p => p.context.get prio)

/-! ### The policy database -/

/-- `struct pe_user`. -/
structure User where
  uid : ℕ
  prio : ByPrio (Option Ruleset)
  deriving DecidableEq

/-- `struct pe_policy_db`. -/
abbrev PolicyDb := List User

/-- `pe_user_get`. -/
def peUserGet (uid : ℕ) (p : PolicyDb) : Option User := p.find? (fun u => u.uid = uid)

/-- The ruleset stored for exactly this user. -/
def storedRuleset (uid : ℕ) (prio : Prio) (p : PolicyDb) : Option Ruleset :=
  (peUserGet uid p).bind (fun u => u.prio.get prio)

/-- `pe_user_get_ruleset`. -/
def peUserGetRuleset (uid : ℕ) (prio : Prio) (p : PolicyDb) : Option Ruleset :=
  match storedRuleset uid prio p with
  | some rs => some rs
  | none => storedRuleset uidDefault prio p

/-- A user without rulesets (`calloc`). -/
def User.fresh (uid : ℕ) : User := ⟨uid, ⟨none, none⟩⟩

/-- Store the ruleset of one priority. -/
def User.store (u : User) (prio : Prio) (rs : Ruleset) : User :=
  { u with prio := u.prio.set prio (some rs) }

/-- The database part of `pe_user_insert_rs`: find or create the user, store the ruleset. -/
def insertRs (rs : Ruleset) (uid : ℕ) (prio : Prio) : PolicyDb → PolicyDb
  | [] => [(User.fresh uid).store prio rs]
  | u :: us =>
    if u.uid = uid then u.store prio rs :: us
    else u :: insertRs rs uid prio us

theorem peUserGet_insertRs_ne (rs : Ruleset) {uid u : ℕ} (h : u ≠ uid) (prio : Prio) (db : PolicyDb) :
    peUserGet u (insertRs rs uid prio db) = peUserGet u db := by
  induction db with
  | nil => simp [insertRs, peUserGet, User.fresh, User.store, Ne.symm h]
  | cons v vs ih =>
    simp only [peUserGet] at ih
    simp only [insertRs]
    split
    · rename_i hv
      have hu : ¬ v.uid = u := fun hvu => h (hvu.symm.trans hv)
      simp [peUserGet, User.store, hu]
    · simp only [peUserGet, List.find?_cons, ih]

theorem peUserGet_insertRs_self (rs : Ruleset) (uid : ℕ) (prio : Prio) (db : PolicyDb) :
    peUserGet uid (insertRs rs uid prio db) = some (((peUserGet uid db).getD (User.fresh uid)).store prio rs) := by
  induction db with
  | nil => simp [insertRs, peUserGet, User.fresh, User.store]
  | cons v vs ih =>
    simp only [peUserGet] at ih
    simp only [insertRs]
    split
    · rename_i hv
      simp [peUserGet, User.store, hv]
    · rename_i hv
      simp [peUserGet, hv, ih]

/-- What is stored after an insertion. -/
theorem storedRuleset_insertRs (rs : Ruleset) (uid u : ℕ) (prio q : Prio) (db : PolicyDb) :
    storedRuleset u q (insertRs rs uid prio db) =
      if u = uid ∧ q = prio then some rs else storedRuleset u q db := by
  by_cases hu : u = uid
  · subst hu
    rw [storedRuleset, peUserGet_insertRs_self, Option.bind_some, User.store]
    by_cases hq : q = prio
    · subst hq
      simp
    · rw [if_neg (by simp [hq]), ByPrio.get_set_ne _ _ hq, storedRuleset]
      cases peUserGet u db with
      | none => cases q <;> rfl
      | some v => rfl
  · rw [storedRuleset, peUserGet_insertRs_ne rs hu, if_neg (by simp [hu]), storedRuleset]

end Anoubis.Pe

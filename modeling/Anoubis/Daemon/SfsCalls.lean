import Anoubis.Daemon.Sfs

/-! The calls of the functions on the tree of checksums.

    For each function, what has to be permitted so that all its calls are, whatever the system answers. -/

namespace Anoubis.Daemon.Sfs

open Anoubis.Lib
open Anoubis.Lib.Prog
open Anoubis.Connection (Bytes)

variable {σ : Type} {step : σ → (c : Call) → Answer c → σ → Prop} {P : σ → Call → Prop} {s : σ}
variable {root path file dir : Text}

/-! ### Writing -/

theorem safe_mkpathFrom (hmkdir : ∀ s i, P s (.mkdir (path.take i))) (i n : ℕ) :
    (mkpathFrom path i n).Safe step P (fun _ _ => True) s := by
  induction n generalizing i s with
  | zero =>
    rw [mkpathFrom]
    trivial
  | succ n ih =>
    rw [mkpathFrom]
    split
    · refine ⟨hmkdir s i, fun r s' _ => ?_⟩
      dsimp only
      split
      · split
        · trivial
        · exact ih (i + 1)
      · exact ih (i + 1)
    · exact ih (i + 1)

theorem safe_mkpath (hmkdir : ∀ s i, P s (.mkdir (path.take i))) :
    (mkpath path).Safe step P (fun _ _ => True) s := safe_mkpathFrom hmkdir 1 path.length

/-- A file without an upgrade checksum is written under its temporary name and then renamed. -/
theorem safe_writesfsdata {data : SfsData} (hup : data.upgradecsdata = []) (hspace : ∀ s, P s .space)
    (hmkdir : ∀ s i, P s (.mkdir (dir.take i))) (hopen : ∀ s, P s (.openTrunc (tmpName file)))
    (hwrite : ∀ s, P s (.write (tmpName file) data))
    (hrename : ∀ s s', step s' (.write (tmpName file) data) (.ok ()) s → P s (.rename (tmpName file) file))
    (hunlink : ∀ s, P s (.unlink (tmpName file))) :
    (sfsWritesfsdata root file dir data).Safe step P (fun _ _ => True) s := by
  have hstored : storedData data = data := by
    cases data
    dsimp only at hup
    subst hup
    simp [storedData]
  have hfail : ∀ s (e : ℤ), (Prog.call (A := Answer) (Call.unlink (tmpName file)) fun _ =>
      (Prog.ret (.error e) : Work (Except ℤ Unit))).Safe step P (fun _ _ => True) s :=
    fun s e => ⟨hunlink s, fun _ _ _ => trivial⟩
  rw [sfsWritesfsdata, hstored]
  refine ⟨hspace s, fun r s _ => ?_⟩
  cases r with
  | error e => trivial
  | ok u =>
    dsimp only
    split
    · trivial
    split
    · trivial
    refine (safe_mkpath hmkdir).bind fun r s _ => ?_
    cases r with
    | error e => trivial
    | ok u =>
      refine ⟨hopen s, fun r s _ => ?_⟩
      cases r with
      | error e => trivial
      | ok u =>
        refine ⟨hwrite s, fun r s₂ hstep => ?_⟩
        cases r with
        | error e => exact hfail s₂ e
        | ok u =>
          simp only [upgradeindexFor, hup, ne_eq, not_true_eq_false, if_false, ret_bind]
          refine ⟨hrename s₂ s hstep, fun r s _ => ?_⟩
          cases r with
          | error e => exact hfail s e
          | ok u => trivial

/-! ### Deleting -/

theorem safe_removeEmptyFrom (hdirs : ∀ s i, P s (.opendir (path.take i)) ∧ P s (.rmdir (path.take i))) (n k : ℕ) :
    (removeEmptyFrom path n k).Safe step P (fun _ _ => True) s := by
  induction k generalizing s with
  | zero =>
    rw [removeEmptyFrom]
    trivial
  | succ k ih =>
    rw [removeEmptyFrom]
    split
    · split
      · have hempty : (checkEmptyDir (path.take (k + 1))).Safe step P (fun _ _ => True) s :=
          ⟨(hdirs s (k + 1)).1, fun _ _ _ => trivial⟩
        refine hempty.bind fun empty s' _ => ?_
        split
        · trivial
        · refine ⟨(hdirs s' (k + 1)).2, fun r s' _ => ?_⟩
          dsimp only
          split
          · trivial
          · exact ih
      · exact ih
    · trivial

theorem safe_deletechecksum (hunlink : ∀ s, P s (.unlink file))
    (hdirs : ∀ s i, P s (.opendir (file.take i)) ∧ P s (.rmdir (file.take i))) :
    (sfsDeletechecksum root file).Safe step P (fun _ _ => True) s := by
  rw [sfsDeletechecksum]
  split
  · trivial
  · refine ⟨hunlink s, fun r s _ => ?_⟩
    dsimp only
    split
    · trivial
    · exact (safe_removeEmptyFrom hdirs _ _).bind fun _ _ _ => trivial

/-! ### Lists -/

variable {sfsPath : Text} {csop : Checksumop}

theorem safe_checkFor {name entry : Text} {flags : ℕ} {index : Bool} (hlstat : ∀ s f, P s (.lstat f))
    (hread : ∀ s, P s (.read (fileIn (fileIn sfsPath entry) name))) :
    (checkFor name sfsPath entry flags index).Safe step P (fun _ _ => True) s := by
  rw [checkFor]
  split
  · trivial
  · refine ⟨hlstat s _, fun r s _ => ?_⟩
    dsimp only
    split
    · trivial
    · split
      · trivial
      · rename_i hindex
        split
        · rw [List.nil_append, sfsUpgraded]
          exact ⟨hread s, fun _ _ _ => trivial⟩
        · trivial

theorem safe_wantentry {entry : Text} (hlstat : ∀ s f, P s (.lstat f))
    (hwant : has csop.listflags csumWantids = false → has csop.listflags csumAll = false →
      (has csop.listflags csumUid = true → ∀ s, P s (.read (fileIn (fileIn sfsPath entry) (uidName csop.uid)))) ∧
      (has csop.listflags csumKey = true → ∀ s, P s (.read (fileIn (fileIn sfsPath entry) (keyName csop.keyid))))) :
    (sfsWantentry csop sfsPath entry).Safe step P (fun _ _ => True) s := by
  rw [sfsWantentry]
  split
  · trivial
  split
  · trivial
  rename_i hids
  split
  · trivial
  rename_i hall
  obtain ⟨huid, hkey⟩ := hwant (by simpa using hids) (by simpa using hall)
  have huid' : (wantUid csop sfsPath entry).Safe step P (fun _ _ => True) s := by
    rw [wantUid]
    split
    · rename_i h
      exact safe_checkFor hlstat (huid h)
    · trivial
  refine huid'.bind fun uid s _ => ?_
  split
  · trivial
  · rw [wantKey]
    split
    · rename_i h
      exact safe_checkFor hlstat (hkey h)
    · trivial

theorem safe_listEntries {d : Master} (hreply : ∀ s r, P s (.reply r))
    (hwant : ∀ s entry, (sfsWantentry csop sfsPath entry).Safe step P (fun _ _ => True) s) (entries : List Text)
    (start : Bool) (names : List Text) (found : Bool) :
    (listEntries d csop sfsPath entries start names found).Safe step P (fun _ _ => True) s := by
  induction entries generalizing s start names found with
  | nil =>
    rw [listEntries]
    trivial
  | cons entry entries ih =>
    rw [listEntries]
    refine (hwant s entry).bind fun wanted s _ => ?_
    split
    · exact ih start names found
    · dsimp only
      split
      · refine ⟨hreply s _, fun r s _ => ?_⟩
        dsimp only
        split
        · trivial
        · exact ih _ _ _
      · exact ih _ _ _

theorem safe_removeIndex (hdirs : ∀ s p, P s (.opendir p) ∧ P s (.rmdir p))
    (hunlink : has csop.listflags csumWantids = false → ∀ s name, P s (.unlink (fileIn path (indexPrefix ++ name)))) :
    (sfsRemoveIndex root path csop).Safe step P (fun _ _ => True) s := by
  rw [sfsRemoveIndex]
  split
  · trivial
  split
  · trivial
  rename_i hids
  have hindex : ∀ s flag name, (removeIndexFor root path flag name).Safe step P (fun _ _ => True) s := by
    intro s flag name
    rw [removeIndexFor]
    split
    · have hdel : (sfsDeletechecksum root (fileIn path (indexPrefix ++ name))).Safe step P (fun _ _ => True) s :=
        safe_deletechecksum (fun s => hunlink (Bool.eq_false_iff.mpr fun h => hids (by simp [h])) s name)
          fun s i => hdirs s _
      exact hdel.bind fun _ _ _ => trivial
    · trivial
  exact (hindex s _ _).bind fun _ s _ => hindex s _ _

end Anoubis.Daemon.Sfs

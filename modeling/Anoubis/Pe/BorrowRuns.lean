import Anoubis.Pe.Borrow
import Anoubis.Lib.Run

/-! Runs of processes that borrow contexts.

    What one event does to a slot, then the ledger on its own, then both side by side: as long as the
    books agree, an event keeps them in agreement exactly if it meets `ReturnOk`.

        slot --ipcStep--> slot
         │                 │       saved = own of the loan
        loan --note-----> loan                                  -/

namespace Anoubis.Pe

open List

open Anoubis.Apn Option
open Anoubis.Lib (Along)

variable {w : World} {st : PeState} {l : Ledger} {k : ℕ} {i : Prio}

/-! ### What an event does to a slot -/

theorem taskCookie_borrow (proc p : Proc) (conn : ℕ) :
    (peContextBorrow w st.db proc p conn).taskCookie = p.taskCookie := by
  obtain ⟨-, -, -, hcookie, -⟩ := (rounds_borrow w st.db proc conn).foldl p .admin
  exact hcookie

theorem taskCookie_restore (conn : ℕ) (p : Proc) : (peContextRestore p conn).taskCookie = p.taskCookie := by
  obtain ⟨-, -, -, hcookie, -⟩ := (rounds_restore conn).foldl p .admin
  exact hcookie

theorem taskCookie_open (msgUid : ℕ) (pident : Ident) (p : Proc) :
    (peContextOpen w st.db p msgUid pident).taskCookie = p.taskCookie := by
  obtain ⟨-, -, -, hcookie, -⟩ := (rounds_open w st.db msgUid pident).foldl p .admin
  exact hcookie

theorem taskCookie_exec (uid : ℕ) (ident : Ident) (secure : Bool) (p : Proc) :
    (execProc w st.db uid ident secure p).taskCookie = p.taskCookie := by
  obtain ⟨-, -, -, hcookie, -⟩ := (rounds_exec w st.db uid ident).foldl { p with ident := ident } .admin
  rw [execProc, peContextExec]
  split
  · exact hcookie
  · exact hcookie

theorem taskCookie_refreshAll (db : PolicyDb) (p : Proc) :
    (Prio.all.foldl (peContextRefresh w db) p).taskCookie = p.taskCookie := by
  obtain ⟨-, -, -, hcookie, -⟩ := (rounds_refresh w db).foldl p .admin
  exact hcookie

variable {source dest : ℕ} {L : Loan} {e : IpcEvent}

/-- A connection that does not lend leaves the slots alone. -/
theorem slot_connect_of_not (w : World) (conn : ℕ) (h : ¬ (k = dest ∧ lends w st source dest i = true)) :
    (ipcStep w st (.connect source dest conn)).slot k i = st.slot k i := by
  simp only [ipcStep, step]
  cases hproc : peProcGet source st.tracker with
  | none => rfl
  | some proc =>
    dsimp only
    rw [slot_modify (fun p => taskCookie_borrow proc p conn)]
    split
    · rename_i hk
      subst hk
      cases hprocp : peProcGet k st.tracker with
      | none => rw [PeState.slot, hprocp]
      | some procp =>
        have hno : borrows w proc procp i = none := by simpa [lends, hproc, hprocp] using h
        rw [slot_of_get hprocp]
        exact (slot_borrow st.db proc procp conn).1 hno
    · rfl

/-- A connection that lends saves the active context, unless one is saved already. -/
theorem slot_connect (w : World) (conn : ℕ) (h : lends w st source k i = true) :
    (∀ c, (st.slot k i).saved = some c → ∃ a,
      (ipcStep w st (.connect source k conn)).slot k i = ⟨a, some c, (st.slot k i).cookie⟩) ∧
    ((st.slot k i).saved = none → ∃ a c, (st.slot k i).active = some c ∧
      (ipcStep w st (.connect source k conn)).slot k i = ⟨a, some c, conn⟩) := by
  rw [lends] at h
  cases hproc : peProcGet source st.tracker with
  | none => simp [hproc] at h
  | some proc =>
    cases hprocp : peProcGet k st.tracker with
    | none => simp [hproc, hprocp] at h
    | some procp =>
      simp only [hproc, hprocp] at h
      obtain ⟨b, hb⟩ := isSome_iff_exists.mp h
      have hslot : (ipcStep w st (.connect source k conn)).slot k i =
          (peContextBorrow w st.db proc procp conn).slot i := by
        simp only [ipcStep, step, hproc]
        rw [slot_modify (fun p => taskCookie_borrow proc p conn), if_pos rfl, hprocp]
      rw [hslot, slot_of_get hprocp]
      refine ⟨fun c hc => (slot_borrow st.db proc procp conn).2.1 b c hb hc, fun hnone => ?_⟩
      obtain ⟨a, ha⟩ := (slot_borrow st.db proc procp conn).2.2 b hb hnone
      obtain ⟨c, hc, -⟩ := borrows_context hb
      exact ⟨a, c, hc, by rw [ha, hc]⟩

/-- A destroy event gives back what its connection saved for the source. -/
theorem slot_destroy (w : World) (source dest conn : ℕ) :
    (ipcStep w st (.destroy source dest conn)).slot k i =
      if k = source then (match (st.slot k i).saved with
        | none => st.slot k i
        | some c => if (st.slot k i).cookie = conn then ⟨some c, none, conn⟩ else st.slot k i)
      else st.slot k i := by
  simp only [ipcStep, step]
  rw [slot_modify (taskCookie_restore conn)]
  by_cases hk : k = source
  · rw [if_pos hk, if_pos hk]
    cases hp : peProcGet k st.tracker with
    | none => simp [PeState.slot, hp]
    | some p =>
      rw [slot_of_get hp]
      exact slot_restore p conn
  · rw [if_neg hk, if_neg hk]

/-- Nothing is saved or given back, and what is saved stays under its cookie. -/
def Slot.Carried (a b : Slot) : Prop := b.saved = a.saved ∧ (a.saved ≠ none → b.cookie = a.cookie)

theorem Slot.Carried.refl (a : Slot) : Slot.Carried a a := ⟨rfl, fun _ => rfl⟩

/-- A process that was not tracked and has nothing saved. -/
theorem carried_of_untracked {b : Slot} (hget : peProcGet k st.tracker = none) (hb : b.saved = none) :
    Slot.Carried (st.slot k i) b := by
  rw [PeState.slot, hget]
  exact ⟨hb, fun h => absurd rfl h⟩

theorem slot_openFile (w : World) (cookie msgUid : ℕ) (ident : Ident) :
    Slot.Carried (st.slot k i) ((ipcStep w st (.openFile cookie msgUid ident)).slot k i) := by
  simp only [ipcStep, step]
  rw [slot_modify (taskCookie_open msgUid ident)]
  split
  · cases hp : peProcGet k st.tracker with
    | none => exact carried_of_untracked hp rfl
    | some p =>
      obtain ⟨a, ha⟩ := slot_open w st.db (q := i) p msgUid ident
      rw [slot_of_get hp]
      dsimp only
      rw [ha]
      exact ⟨rfl, fun _ => rfl⟩
  · exact .refl _

theorem slot_fork (w : World) (uid child parent pgid : ℕ) :
    Slot.Carried (st.slot k i) ((ipcStep w st (.fork uid child parent pgid)).slot k i) := by
  simp only [ipcStep, step, peProcFork]
  cases hp : peProcGet k st.tracker with
  | some p =>
    rw [slot_of_get hp, PeState.slot, peProcGet_append, hp]
    exact .refl _
  | none =>
    refine carried_of_untracked hp ?_
    rw [PeState.slot, peProcGet_append, hp, none_or]
    split
    · rfl
    · rename_i heq
      split at heq
      · rw [← some.inj heq]
        exact saved_fork _ _ (by cases i <;> rfl)
      · cases heq

theorem slot_execEvent (w : World) (cookie uid : ℕ) (ident : Ident) (pgid : ℕ) (secure : Bool) :
    (k = cookie ∧ execs w st cookie uid ident i = true →
      ((ipcStep w st (.exec cookie uid ident pgid secure)).slot k i).saved = none) ∧
    (¬ (k = cookie ∧ execs w st cookie uid ident i = true) →
      Slot.Carried (st.slot k i) ((ipcStep w st (.exec cookie uid ident pgid secure)).slot k i)) := by
  have hslot := fun ps => @slot_modify ⟨ps, st.db⟩ k i (execProc w st.db uid ident secure)
    (fun p => taskCookie_exec uid ident secure p) cookie
  simp only [PeState.modify] at hslot
  simp only [ipcStep, step, peProcExec]
  cases hp : peProcGet cookie st.tracker with
  | some p =>
    dsimp only
    rw [hslot, execs, hp, any_some]
    refine ⟨fun h => ?_, fun h => ?_⟩
    · obtain ⟨hk, hx⟩ := h
      rw [if_pos hk, hk, hp]
      exact (slot_exec p uid ident secure).1 hx
    · by_cases hk : k = cookie
      · rw [if_pos hk, hk, hp, slot_of_get hp]
        dsimp only
        rw [(slot_exec p uid ident secure).2 fun hx => h ⟨hk, hx⟩]
        exact .refl _
      · rw [if_neg hk]
        exact .refl _
  | none =>
    dsimp only
    rw [hslot, execs, hp]
    refine ⟨fun h => absurd h.2 (by simp), fun _ => ?_⟩
    by_cases hk : k = cookie
    · refine carried_of_untracked (hk ▸ hp) ?_
      have hnew : (newProc uid cookie pgid noIdent).taskCookie = cookie := rfl
      rw [if_pos hk, peProcGet_append, hk, hp, if_pos hnew, none_or]
      exact (slot_exec _ uid ident secure).1 (by cases i <;> rfl)
    · rw [if_neg hk, PeState.slot, PeState.slot, peProcGet_append,
        if_neg (show (newProc uid cookie pgid noIdent).taskCookie ≠ k from fun h => hk h.symm), or_none]
      exact .refl _

/-- A new ruleset refreshes what is saved for the selected processes. -/
theorem slot_upload (w : World) (rs : Ruleset) (uid : ℕ) (prio : Prio) :
    ((ipcStep w st (.upload rs uid prio)).slot k i).saved =
      (if i = prio ∧ (peProcGet k st.tracker).any (selected (storedRuleset uid prio st.db) prio uid) then
        (st.slot k i).saved.map (refreshOf w (insertRs rs uid prio st.db) st k i)
      else (st.slot k i).saved) ∧
    ((ipcStep w st (.upload rs uid prio)).slot k i).cookie = (st.slot k i).cookie := by
  have hcookie : ∀ p : Proc, (if selected (storedRuleset uid prio st.db) prio uid p
      then peContextRefresh w (insertRs rs uid prio st.db) p prio else p).taskCookie = p.taskCookie := by
    intro p
    split
    · exact (rounds_refresh w _ p prio).2.1
    · rfl
  simp only [ipcStep, step, peUserInsertRs, peProcUpdateDbOne]
  simp only [PeState.slot, peProcGet_map hcookie]
  cases hp : peProcGet k st.tracker with
  | none => simp
  | some p =>
    simp only [map_some, any_some]
    by_cases hsel : selected (storedRuleset uid prio st.db) prio uid p = true
    · rw [if_pos hsel]
      by_cases hi : i = prio
      · subst hi
        obtain ⟨a, ha⟩ := slot_refreshPrio w (insertRs rs uid i st.db) (q := i) p
        have hfun : refreshOf w (insertRs rs uid i st.db) st k i =
            refreshCtx w (insertRs rs uid i st.db) p i := by
          funext c
          rw [refreshOf, hp]
        rw [ha, if_pos ⟨rfl, hsel⟩, hfun]
        exact ⟨rfl, rfl⟩
      · rw [((rounds_refresh w _ p prio).1 i hi).slot, if_neg fun h => hi h.1]
        exact ⟨rfl, rfl⟩
    · rw [if_neg hsel, if_neg fun h => hsel h.2]
      exact ⟨rfl, rfl⟩

/-- A full reload refreshes everything that is saved. -/
theorem slot_reconfigure (w : World) (db : PolicyDb) :
    ((ipcStep w st (.reconfigure db)).slot k i).saved = (st.slot k i).saved.map (refreshOf w db st k i) ∧
    ((ipcStep w st (.reconfigure db)).slot k i).cookie = (st.slot k i).cookie := by
  simp only [ipcStep, peUserReconfigure, peProcUpdateDb]
  simp only [PeState.slot, peProcGet_map (taskCookie_refreshAll db)]
  cases hp : peProcGet k st.tracker with
  | none => exact ⟨rfl, rfl⟩
  | some p =>
    obtain ⟨a, ha⟩ := slot_refreshAll w db (q := i) p
    have hfun : refreshOf w db st k i = refreshCtx w db p i := by
      funext c
      rw [refreshOf, hp]
    simp only [map_some]
    rw [ha, hfun]
    exact ⟨rfl, rfl⟩

/-! ### The ledger on its own -/

/-- Loans have open connections; the cookie of the first one belongs to no other open connection. -/
structure LedgerOk (l : Ledger) : Prop where
  used : ∀ x ∈ l.conns, x.cookie ∈ l.used
  unique : ∀ x ∈ l.conns, ∀ y ∈ l.conns, x.cookie = y.cookie → x = y
  first : ∀ k i L, l.loan k i = some L → L.first ∈ l.used
  open_ : ∀ k i L, l.loan k i = some L → L.conns ≠ [] ∧ ∀ c ∈ L.conns, ∃ s, ⟨s, k, c⟩ ∈ l.conns
  firstOpen : ∀ k i L, l.loan k i = some L → ∀ s d, ⟨s, d, L.first⟩ ∈ l.conns → L.first ∈ L.conns

theorem ledgerOk_empty : LedgerOk .empty := by
  refine ⟨?_, ?_, ?_, ?_, ?_⟩ <;> simp [Ledger.empty]

/-- Loans change in their own context only, or end. -/
theorem LedgerOk.loans (h : LedgerOk l) {loan : ℕ → Prio → Option Loan}
    (hloan : ∀ k i L, loan k i = some L → ∃ L₀, l.loan k i = some L₀ ∧ L.first = L₀.first ∧
      L.conns = L₀.conns) : LedgerOk { l with loan := loan } := by
  refine ⟨h.used, h.unique, fun k i L hL => ?_, fun k i L hL => ?_, fun k i L hL => ?_⟩
  · obtain ⟨L₀, h0, hfirst, -⟩ := hloan k i L hL
    exact hfirst ▸ h.first k i L₀ h0
  · obtain ⟨L₀, h0, -, hconns⟩ := hloan k i L hL
    exact hconns ▸ h.open_ k i L₀ h0
  · obtain ⟨L₀, h0, hfirst, hconns⟩ := hloan k i L hL
    rw [hfirst, hconns]
    exact h.firstOpen k i L₀ h0

theorem mem_rest {c x : ℕ} : x ∈ L.rest c ↔ x ∈ L.conns ∧ x ≠ c := by
  simp [Loan.rest]

theorem ledgerOk_connect (h : LedgerOk l) (w : World) {conn : ℕ} (hnew : conn ∉ l.used) :
    LedgerOk (l.note w st (.connect source dest conn)) := by
  -- a loan behind the connect is an old one, with or without the connection, or a new one with it alone
  have hloan : ∀ k i L, (l.note w st (.connect source dest conn)).loan k i = some L →
      (∃ L₀, l.loan k i = some L₀ ∧ L.first = L₀.first ∧
        (L.conns = L₀.conns ∨ k = dest ∧ L.conns = conn :: L₀.conns)) ∨
      (k = dest ∧ L.first = conn ∧ L.conns = [conn]) := by
    intro k i L hL
    simp only [Ledger.note] at hL
    split at hL
    · rename_i hk
      cases h0 : l.loan k i with
      | none =>
        rw [h0, Loan.lend] at hL
        obtain ⟨own, -, rfl⟩ := map_eq_some_iff.mp hL
        exact .inr ⟨hk.1, rfl, rfl⟩
      | some L₀ =>
        rw [h0, Loan.lend, Option.some.injEq] at hL
        subst hL
        exact .inl ⟨L₀, rfl, rfl, .inr ⟨hk.1, rfl⟩⟩
    · exact .inl ⟨L, hL, rfl, .inl rfl⟩
  refine ⟨?_, ?_, fun k i L hL => ?_, fun k i L hL => ?_, fun k i L hL s d hmem => ?_⟩
  · intro x hx
    rcases mem_cons.mp hx with rfl | hx
    · exact mem_cons_self
    · exact mem_cons_of_mem _ (h.used x hx)
  · intro x hx y hy hxy
    rcases mem_cons.mp hx with rfl | hx
    · rcases mem_cons.mp hy with rfl | hy
      · rfl
      · have heq : conn = y.cookie := hxy
        exact absurd (heq ▸ h.used y hy) hnew
    · rcases mem_cons.mp hy with rfl | hy
      · have heq : x.cookie = conn := hxy
        exact absurd (heq ▸ h.used x hx) hnew
      · exact h.unique x hx y hy hxy
  · rcases hloan k i L hL with ⟨L₀, h0, hfirst, -⟩ | ⟨-, hfirst, -⟩
    · exact mem_cons_of_mem _ (hfirst ▸ h.first k i L₀ h0)
    · exact hfirst ▸ mem_cons_self
  · rcases hloan k i L hL with ⟨L₀, h0, -, hconns | ⟨hk, hconns⟩⟩ | ⟨hk, -, hconns⟩
    · rw [hconns]
      refine ⟨(h.open_ k i L₀ h0).1, fun c hc => ?_⟩
      obtain ⟨s, hs⟩ := (h.open_ k i L₀ h0).2 c hc
      exact ⟨s, mem_cons_of_mem _ hs⟩
    · rw [hconns, hk]
      refine ⟨by simp, fun c hc => ?_⟩
      rcases mem_cons.mp hc with rfl | hc
      · exact ⟨source, mem_cons_self⟩
      · obtain ⟨s, hs⟩ := (h.open_ k i L₀ h0).2 c hc
        exact ⟨s, mem_cons_of_mem _ (hk ▸ hs)⟩
    · rw [hconns, hk]
      refine ⟨by simp, fun c hc => ⟨source, ?_⟩⟩
      rw [mem_singleton.mp hc]
      exact mem_cons_self
  · rcases hloan k i L hL with ⟨L₀, h0, hfirst, hconns⟩ | ⟨-, hfirst, hconns⟩
    · have hold : L₀.first ∈ L₀.conns := by
        rcases mem_cons.mp hmem with heq | hmem
        · have heq : L.first = conn := congrArg Conn.cookie heq
          exact absurd (heq ▸ hfirst ▸ h.first k i L₀ h0) hnew
        · exact h.firstOpen k i L₀ h0 s d (hfirst ▸ hmem)
      rcases hconns with hconns | ⟨-, hconns⟩
      · rw [hfirst, hconns]
        exact hold
      · rw [hfirst, hconns]
        exact mem_cons_of_mem _ hold
    · rw [hfirst, hconns]
      exact mem_cons_self

theorem ledgerOk_destroy (h : LedgerOk l) (w : World) {conn : ℕ} (hmem : ⟨source, dest, conn⟩ ∈ l.conns) :
    LedgerOk (l.note w st (.destroy source dest conn)) := by
  -- a loan behind the destroy event is an old one without the connection
  have hloan : ∀ k i L, (l.note w st (.destroy source dest conn)).loan k i = some L →
      ∃ L₀, l.loan k i = some L₀ ∧ L.first = L₀.first ∧ L.conns ≠ [] ∧
        ∀ c, c ∈ L.conns ↔ c ∈ L₀.conns ∧ c ≠ conn := by
    intro k i L hL
    simp only [Ledger.note] at hL
    split at hL
    · obtain ⟨L₀, h0, hL⟩ := bind_eq_some_iff.mp hL
      rw [Loan.giveBack] at hL
      split at hL
      · cases hL
      · rename_i hrest
        rw [← some.inj hL]
        exact ⟨L₀, h0, rfl, hrest, fun c => mem_rest⟩
    · rename_i hk
      refine ⟨L, hL, rfl, (h.open_ k i L hL).1, fun c => ⟨fun hc => ⟨hc, fun heq => ?_⟩, fun hc => hc.1⟩⟩
      obtain ⟨s, hs⟩ := (h.open_ k i L hL).2 c hc
      have hdest := congrArg Conn.dest (h.unique _ hs _ hmem heq)
      exact hk hdest
  have hconns : ∀ x : Conn, x ∈ (l.note w st (.destroy source dest conn)).conns ↔
      x ∈ l.conns ∧ x.cookie ≠ conn := by
    intro x
    simp [Ledger.note]
  refine ⟨fun x hx => h.used x ((hconns x).mp hx).1,
    fun x hx y hy => h.unique x ((hconns x).mp hx).1 y ((hconns y).mp hy).1,
    fun k i L hL => ?_, fun k i L hL => ?_, fun k i L hL s d hx => ?_⟩
  · obtain ⟨L₀, h0, hfirst, -⟩ := hloan k i L hL
    exact hfirst ▸ h.first k i L₀ h0
  · obtain ⟨L₀, h0, -, hne, hc⟩ := hloan k i L hL
    refine ⟨hne, fun c hmem => ?_⟩
    obtain ⟨s, hs⟩ := (h.open_ k i L₀ h0).2 c ((hc c).mp hmem).1
    exact ⟨s, (hconns _).mpr ⟨hs, ((hc c).mp hmem).2⟩⟩
  · obtain ⟨L₀, h0, hfirst, -, hc⟩ := hloan k i L hL
    obtain ⟨hx, hne⟩ := (hconns _).mp hx
    rw [hfirst] at hx hne ⊢
    exact (hc _).mpr ⟨h.firstOpen k i L₀ h0 s d hx, hne⟩

/-- Every proper event keeps the ledger in order. -/
theorem ledgerOk_note (h : LedgerOk l) (w : World) (hproper : Proper l e) : LedgerOk (l.note w st e) := by
  cases e with
  | connect source dest conn => exact ledgerOk_connect h w hproper
  | destroy source dest conn => exact ledgerOk_destroy h w hproper
  | exec cookie uid ident pgid secure =>
    refine h.loans fun k i L hL => ?_
    split at hL
    · cases hL
    · exact ⟨L, hL, rfl, rfl⟩
  | openFile cookie msgUid ident => exact h
  | fork uid child parent pgid => exact h
  | upload rs uid prio =>
    refine h.loans fun k i L hL => ?_
    split at hL
    · obtain ⟨L₀, h0, rfl⟩ := map_eq_some_iff.mp hL
      exact ⟨L₀, h0, rfl, rfl⟩
    · exact ⟨L, hL, rfl, rfl⟩
  | reconfigure db =>
    refine h.loans fun k i L hL => ?_
    obtain ⟨L₀, h0, rfl⟩ := map_eq_some_iff.mp hL
    exact ⟨L₀, h0, rfl, rfl⟩

/-! ### The tracker beside the ledger -/

/-- What is saved is what is lent, under the cookie of the connection that lent first. -/
structure Match (l : Ledger) (st : PeState) : Prop where
  saved : ∀ k i, (st.slot k i).saved = (l.loan k i).map (·.own)
  cookie : ∀ k i L, l.loan k i = some L → (st.slot k i).cookie = L.first

theorem Match.saved_some (h : Match l st) (hL : l.loan k i = some L) : (st.slot k i).saved = some L.own := by
  rw [h.saved, hL]
  rfl

theorem Match.carried (h : Match l st) (hL : l.loan k i = some L) {b : Slot} (hb : Slot.Carried (st.slot k i) b) :
    b.cookie = L.first := by
  rw [hb.2 (by simp [h.saved_some hL])]
  exact h.cookie k i L hL

/-- The cookies stay with the loans, whatever happens. -/
theorem cookie_note (h : Match l st) (w : World) (e : IpcEvent) (hL : (l.note w st e).loan k i = some L) :
    ((ipcStep w st e).slot k i).cookie = L.first := by
  cases e with
  | connect source dest conn =>
    simp only [Ledger.note] at hL
    split at hL
    · rename_i hk
      obtain ⟨rfl, hlend⟩ := hk
      obtain ⟨hold, hnew⟩ := slot_connect w conn hlend
      cases h0 : l.loan k i with
      | none =>
        rw [h0, Loan.lend] at hL
        obtain ⟨own, -, rfl⟩ := map_eq_some_iff.mp hL
        obtain ⟨a, c, -, hslot⟩ := hnew (by rw [h.saved, h0]; rfl)
        rw [hslot]
      | some L₀ =>
        rw [h0, Loan.lend, Option.some.injEq] at hL
        obtain ⟨a, hslot⟩ := hold _ (h.saved_some h0)
        rw [hslot, ← hL]
        exact h.cookie k i L₀ h0
    · rename_i hk
      rw [slot_connect_of_not w conn hk]
      exact h.cookie k i L hL
  | destroy source dest conn =>
    have hcookie : ((ipcStep w st (.destroy source dest conn)).slot k i).cookie = (st.slot k i).cookie := by
      rw [slot_destroy]
      repeat' split
      · rfl
      · rename_i hc
        exact hc.symm
      · rfl
      · rfl
    rw [hcookie]
    simp only [Ledger.note] at hL
    split at hL
    · obtain ⟨L₀, h0, hL⟩ := bind_eq_some_iff.mp hL
      rw [Loan.giveBack] at hL
      split at hL
      · cases hL
      · rw [← some.inj hL]
        exact h.cookie k i L₀ h0
    · exact h.cookie k i L hL
  | exec cookie uid ident pgid secure =>
    simp only [Ledger.note] at hL
    split at hL
    · cases hL
    · rename_i hk
      exact h.carried hL ((slot_execEvent w cookie uid ident pgid secure).2 hk)
  | openFile cookie msgUid ident => exact h.carried hL (slot_openFile w cookie msgUid ident)
  | fork uid child parent pgid => exact h.carried hL (slot_fork w uid child parent pgid)
  | upload rs uid prio =>
    rw [(slot_upload w rs uid prio).2]
    simp only [Ledger.note] at hL
    split at hL
    · obtain ⟨L₀, h0, rfl⟩ := map_eq_some_iff.mp hL
      exact h.cookie k i L₀ h0
    · exact h.cookie k i L hL
  | reconfigure db =>
    rw [(slot_reconfigure w db).2]
    simp only [Ledger.note] at hL
    obtain ⟨L₀, h0, rfl⟩ := map_eq_some_iff.mp hL
    exact h.cookie k i L₀ h0

/-- A destroy event keeps the slots with the loans exactly if the last connection gives back. -/
theorem saved_destroy_iff (hl : LedgerOk l) (h : Match l st) (w : World) {conn : ℕ}
    (hmem : ⟨source, dest, conn⟩ ∈ l.conns) : (∀ k i, ((ipcStep w st (.destroy source dest conn)).slot k i).saved =
        ((l.note w st (.destroy source dest conn)).loan k i).map (·.own)) ↔
      ReturnOk w st l (.destroy source dest conn) := by
  -- the connection that lent first is open only between its own source and dest
  have hfirst : ∀ k i L, l.loan k i = some L → L.first = conn → conn ∈ L.conns ∧ k = dest := by
    intro k i L hL heq
    have hin : L.first ∈ L.conns := hl.firstOpen k i L hL source dest (heq ▸ hmem)
    obtain ⟨s, hs⟩ := (hl.open_ k i L hL).2 _ hin
    have hsame := hl.unique _ hs _ hmem heq
    exact ⟨heq ▸ hin, congrArg Conn.dest hsame⟩
  have hslot : ∀ k i L, l.loan k i = some L → ((ipcStep w st (.destroy source dest conn)).slot k i).saved =
        if k = source ∧ L.first = conn then none else some L.own := by
    intro k i L hL
    rw [slot_destroy, h.saved_some hL, h.cookie k i L hL]
    by_cases hk : k = source
    · by_cases hc : L.first = conn
      · simp [hk, hc]
      · simp [hk, hc, ← h.saved_some hL]
    · simp [hk, ← h.saved_some hL]
  have hloan : ∀ i L, l.loan dest i = some L → ((l.note w st (.destroy source dest conn)).loan dest i).map (·.own) =
        if L.rest conn = [] then none else some L.own := by
    intro i L hL
    by_cases hrest : L.rest conn = []
    · simp [Ledger.note, hL, Loan.giveBack, hrest]
    · simp [Ledger.note, hL, Loan.giveBack, hrest]
  constructor
  · intro hsaved i L hL _
    have heq := hsaved dest i
    rw [hslot dest i L hL, hloan i L hL] at heq
    by_cases hrest : L.rest conn = []
    · rw [if_pos hrest] at heq
      by_cases hc : dest = source ∧ L.first = conn
      · exact ⟨fun _ => ⟨hc.1.symm, hc.2⟩, fun _ => hrest⟩
      · rw [if_neg hc] at heq
        cases heq
    · rw [if_neg hrest] at heq
      refine ⟨fun hr => absurd hr hrest, fun hc => ?_⟩
      rw [if_pos ⟨hc.1.symm, hc.2⟩] at heq
      cases heq
  · intro hok k i
    by_cases hk : k = dest
    · subst hk
      cases hL : l.loan k i with
      | none =>
        have hnone : (st.slot k i).saved = none := by rw [h.saved, hL]; rfl
        simp [slot_destroy, hnone, Ledger.note, hL]
      | some L =>
        rw [hslot k i L hL, hloan i L hL]
        by_cases hc : conn ∈ L.conns
        · have hiff := hok i L hL hc
          by_cases hrest : L.rest conn = []
          · rw [if_pos hrest, if_pos ⟨(hiff.mp hrest).1.symm, (hiff.mp hrest).2⟩]
          · rw [if_neg hrest, if_neg fun h => hrest (hiff.mpr ⟨h.1.symm, h.2⟩)]
        · have hrest : L.rest conn ≠ [] := by
            have hall : L.rest conn = L.conns :=
              filter_eq_self.mpr fun c hmem => decide_eq_true fun heq => hc (heq ▸ hmem)
            rw [hall]
            exact (hl.open_ k i L hL).1
          rw [if_neg hrest, if_neg fun h => hc (hfirst k i L hL h.2).1]
    · have hsame : (l.note w st (.destroy source dest conn)).loan k i = l.loan k i := by
        simp [Ledger.note, hk]
      rw [hsame]
      cases hL : l.loan k i with
      | none =>
        have hnone : (st.slot k i).saved = none := by rw [h.saved, hL]; rfl
        simp [slot_destroy, hnone]
      | some L =>
        rw [hslot k i L hL, if_neg fun h => hk (hfirst k i L hL h.2).2]
        rfl

/-- A new ruleset keeps the slots with the loans exactly if it refreshes the saved contexts it has to. -/
theorem saved_upload_iff (h : Match l st) (w : World) (rs : Ruleset) (uid : ℕ) (prio : Prio) :
    (∀ k i, ((ipcStep w st (.upload rs uid prio)).slot k i).saved =
        ((l.note w st (.upload rs uid prio)).loan k i).map (·.own)) ↔ ReturnOk w st l (.upload rs uid prio) := by
  constructor
  · intro hsaved k p L hp hL hconcerns
    by_cases hsel : selected (storedRuleset uid prio st.db) prio uid p = true
    · exact .inl hsel
    · have heq := hsaved k prio
      have hrel : reloads st uid prio k = true := by simp [reloads, hp, hconcerns]
      have hrefresh : refreshOf w (insertRs rs uid prio st.db) st k prio L.own =
          refreshCtx w (insertRs rs uid prio st.db) p prio L.own := by rw [refreshOf, hp]
      rw [(slot_upload w rs uid prio).1, if_neg (by simp [hp, hsel]), h.saved_some hL] at heq
      simp only [Ledger.note, hrel, and_self, if_true, hL, map_some, hrefresh, Option.some.injEq] at heq
      exact .inr heq.symm
  · intro hok k i
    rw [(slot_upload w rs uid prio).1]
    cases hL : l.loan k i with
    | none =>
      have hnone : (st.slot k i).saved = none := by rw [h.saved, hL]; rfl
      simp [hnone, Ledger.note, hL]
    | some L =>
      rw [h.saved_some hL]
      simp only [Ledger.note, hL, map_some]
      cases hp : peProcGet k st.tracker with
      | none => simp [reloads, hp]
      | some p =>
        have hrefresh : refreshOf w (insertRs rs uid prio st.db) st k i L.own =
            refreshCtx w (insertRs rs uid prio st.db) p i L.own := by rw [refreshOf, hp]
        simp only [any_some, reloads, hp, hrefresh]
        by_cases hi : i = prio
        · subst hi
          by_cases hsel : selected (storedRuleset uid i st.db) i uid p = true
          · simp [hsel]
          · by_cases hc : concerns st.db uid i p = true
            · rcases hok k p L hp hL hc with hs | hr
              · exact absurd hs hsel
              · simp [hsel, hc, hr]
            · simp [hsel, hc]
        · simp [hi]

/-- Every event keeps the slots with the loans exactly if it is in order. -/
theorem saved_note_iff (hl : LedgerOk l) (h : Match l st) (w : World) (hproper : Proper l e) :
    (∀ k i, ((ipcStep w st e).slot k i).saved = ((l.note w st e).loan k i).map (·.own)) ↔ ReturnOk w st l e := by
  cases e with
  | connect source dest conn =>
    refine ⟨fun _ => trivial, fun _ k i => ?_⟩
    simp only [Ledger.note]
    split
    · rename_i hk
      obtain ⟨rfl, hlend⟩ := hk
      obtain ⟨hold, hnew⟩ := slot_connect w conn hlend
      cases h0 : l.loan k i with
      | none =>
        obtain ⟨a, c, hactive, hslot⟩ := hnew (by rw [h.saved, h0]; rfl)
        rw [hslot, hactive]
        rfl
      | some L =>
        obtain ⟨a, hslot⟩ := hold _ (h.saved_some h0)
        rw [hslot]
        rfl
    · rename_i hk
      rw [slot_connect_of_not w conn hk]
      exact h.saved k i
  | destroy source dest conn => exact saved_destroy_iff hl h w hproper
  | exec cookie uid ident pgid secure =>
    refine ⟨fun _ => trivial, fun _ k i => ?_⟩
    simp only [Ledger.note]
    split
    · rename_i hk
      rw [(slot_execEvent w cookie uid ident pgid secure).1 hk]
      rfl
    · rename_i hk
      rw [((slot_execEvent w cookie uid ident pgid secure).2 hk).1]
      exact h.saved k i
  | openFile cookie msgUid ident =>
    refine ⟨fun _ => trivial, fun _ k i => ?_⟩
    rw [(slot_openFile w cookie msgUid ident).1]
    exact h.saved k i
  | fork uid child parent pgid =>
    refine ⟨fun _ => trivial, fun _ k i => ?_⟩
    rw [(slot_fork w uid child parent pgid).1]
    exact h.saved k i
  | upload rs uid prio => exact saved_upload_iff h w rs uid prio
  | reconfigure db =>
    refine ⟨fun _ => trivial, fun _ k i => ?_⟩
    rw [(slot_reconfigure w db).1, h.saved]
    simp only [Ledger.note]
    cases l.loan k i with
    | none => rfl
    | some L => rfl

/-! ### Every step, every run -/

/-- Whatever happens, a saved context is kept or refreshed until it is given back or dropped. -/
theorem savedStep (w : World) (st : PeState) (e : IpcEvent) (k : ℕ) (i : Prio) :
    SavedStep w st e k i (st.slot k i).saved ((ipcStep w st e).slot k i).saved := by
  cases e with
  | connect source dest conn =>
    by_cases hk : k = dest ∧ lends w st source dest i = true
    · obtain ⟨rfl, hlend⟩ := hk
      obtain ⟨hold, hnew⟩ := slot_connect w conn hlend
      cases hs : (st.slot k i).saved with
      | none =>
        obtain ⟨a, c, hactive, hslot⟩ := hnew hs
        rw [hslot]
        exact .save source conn c rfl hactive
      | some c =>
        obtain ⟨a, hslot⟩ := hold c hs
        rw [hslot]
        exact .keep (some c)
    · rw [slot_connect_of_not w conn hk]
      exact .keep _
  | destroy source dest conn =>
    have hslot : (ipcStep w st (.destroy source dest conn)).slot k i = _ := slot_destroy w source dest conn
    by_cases hk : k = source
    · subst hk
      rw [if_pos rfl] at hslot
      cases hs : (st.slot k i).saved with
      | none =>
        rw [hs] at hslot
        rw [hslot, hs]
        exact .keep none
      | some c =>
        rw [hs] at hslot
        by_cases hc : (st.slot k i).cookie = conn
        · simp only [if_pos hc] at hslot
          have hactive : ((ipcStep w st (.destroy k dest conn)).slot k i).active = some c := by rw [hslot]
          rw [hslot]
          exact .restore dest conn c rfl hactive
        · simp only [if_neg hc] at hslot
          rw [hslot, hs]
          exact .keep (some c)
    · rw [if_neg hk] at hslot
      rw [hslot]
      exact .keep _
  | exec cookie uid ident pgid secure =>
    by_cases hk : k = cookie ∧ execs w st cookie uid ident i = true
    · rw [(slot_execEvent w cookie uid ident pgid secure).1 hk]
      obtain ⟨rfl, -⟩ := hk
      cases (st.slot k i).saved with
      | none => exact .keep none
      | some c => exact .drop uid ident pgid secure c rfl
    · rw [((slot_execEvent w cookie uid ident pgid secure).2 hk).1]
      exact .keep _
  | openFile cookie msgUid ident =>
    rw [(slot_openFile w cookie msgUid ident).1]
    exact .keep _
  | fork uid child parent pgid =>
    rw [(slot_fork w uid child parent pgid).1]
    exact .keep _
  | upload rs uid prio =>
    rw [(slot_upload w rs uid prio).1]
    split
    · rename_i hi
      obtain ⟨rfl, -⟩ := hi
      cases (st.slot k i).saved with
      | none => exact .keep none
      | some c => exact .refresh _ c rfl (.inr ⟨rs, uid, rfl⟩)
    · exact .keep _
  | reconfigure db =>
    rw [(slot_reconfigure w db).1]
    cases (st.slot k i).saved with
    | none => exact .keep none
    | some c => exact .refresh db c rfl (.inl rfl)

/-- An event keeps the books exactly if it is in order. -/
theorem returned_iff (hl : LedgerOk l) (h : Match l st) (w : World) (hproper : Proper l e) :
    Returned w st l e ↔ ReturnOk w st l e := by
  rw [← saved_note_iff hl h w hproper]
  refine ⟨fun hret => hret.saved, fun hsaved => ⟨hsaved, (ledgerOk_note hl w hproper).open_, ?_,
    savedStep w st e⟩⟩
  rintro s d c rfl i L hL hc hrest
  have hok := (saved_destroy_iff hl h w hproper).mp hsaved
  obtain ⟨hsource, hfirst⟩ := (hok i L hL hc).mp hrest
  rw [slot_destroy, if_pos hsource.symm, h.saved_some hL]
  simp only [h.cookie d i L hL, hfirst, if_true]

/-- The tracker beside its ledger. -/
structure Books where
  st : PeState
  ledger : Ledger

/-- One event on both. -/
def bookStep (s : Books) (e : World × IpcEvent) : Books :=
  ⟨ipcStep e.1 s.st e.2, s.ledger.note e.1 s.st e.2⟩

theorem match_note (h : Match l st) (w : World) (hret : Returned w st l e) : Match (l.note w st e) (ipcStep w st e) :=
  ⟨hret.saved, fun _ _ _ hL => cookie_note h w e hL⟩

/-- What the connections of a run do, from a state where nothing is saved: the contexts come back with
    their connections in all steps exactly if all steps are in order. -/
theorem borrowed_contexts_return (st : PeState) (hnone : ∀ k i, (st.slot k i).saved = none)
    (es : List (World × IpcEvent))
    (hproper : Along (fun s e => some (bookStep s e)) (fun s e => Proper s.ledger e.2) ⟨st, .empty⟩ es) :
    Along (fun s e => some (bookStep s e)) (fun s e => Returned e.1 s.st s.ledger e.2) ⟨st, .empty⟩ es ↔
      Along (fun s e => some (bookStep s e)) (fun s e => ReturnOk e.1 s.st s.ledger e.2) ⟨st, .empty⟩ es := by
  have hmatch : Match .empty st := ⟨fun k i => (hnone k i).trans rfl, fun k i L hL => by cases hL⟩
  suffices h : ∀ s : Books, LedgerOk s.ledger → Match s.ledger s.st →
      Along (fun s e => some (bookStep s e)) (fun s e => Proper s.ledger e.2) s es →
      (Along (fun s e => some (bookStep s e)) (fun s e => Returned e.1 s.st s.ledger e.2) s es ↔
        Along (fun s e => some (bookStep s e)) (fun s e => ReturnOk e.1 s.st s.ledger e.2) s es) from
    h ⟨st, .empty⟩ ledgerOk_empty hmatch hproper
  clear hproper hmatch hnone
  induction es with
  | nil => exact fun _ _ _ _ => Iff.rfl
  | cons e es ih =>
    intro s hl hm hp
    rw [Lib.along_total] at hp
    rw [Lib.along_total, Lib.along_total, returned_iff hl hm e.1 hp.1]
    refine and_congr_right fun hok => ?_
    have hret := (returned_iff hl hm e.1 hp.1).mpr hok
    exact ih _ (ledgerOk_note hl e.1 hp.1) (match_note hm e.1 hret) hp.2

/-- A process connects to itself and closes the connection: the context it had comes back. -/
def selfRun : List (World × IpcEvent) :=
  [(emptyWorld, .exec 1 1000 noIdent 0 false), (emptyWorld, .connect 1 1 7),
    (emptyWorld, .destroy 1 1 7)]

theorem borrowed_contexts_return_self :
    Along (fun s e => some (bookStep s e)) (fun s e => Returned e.1 s.st s.ledger e.2)
      ⟨⟨[], twoUsers⟩, .empty⟩ selfRun := by
  refine (borrowed_contexts_return ⟨[], twoUsers⟩ (fun k i => rfl) selfRun ?_).mpr ?_
  · simp only [selfRun, Lib.along_total]
    exact ⟨trivial, by simp [Proper, bookStep, Ledger.note, Ledger.empty],
      by simp [Proper, bookStep, Ledger.note], trivial⟩
  · simp only [selfRun, Lib.along_total]
    refine ⟨trivial, trivial, fun i L hL hc => ?_, trivial⟩
    -- only the priority of the user has context rules
    have hloan : some L = (match i with
        | .admin => none
        | .user1 => (bookStep (bookStep ⟨⟨[], twoUsers⟩, .empty⟩
            (emptyWorld, .exec 1 1000 noIdent 0 false)) (emptyWorld, .connect 1 1 7)).ledger.loan 1 .user1) := by
      cases i with
      | admin => exact hL.symm
      | user1 => exact hL.symm
    cases i with
    | admin => cases hloan
    | user1 =>
      obtain rfl := Option.some.inj hloan
      exact ⟨fun _ => ⟨rfl, rfl⟩, fun _ => rfl⟩

/-- Process 2 connects to process 1 and closes the connection. -/
def peerRun : List (World × IpcEvent) :=
  [(emptyWorld, .exec 1 1000 noIdent 0 false), (emptyWorld, .exec 2 1000 noIdent 0 false),
    (emptyWorld, .connect 2 1 7), (emptyWorld, .destroy 2 1 7)]

/-- No connection is open any more, but process 1 has not got back its context. -/
theorem borrowed_context_stays :
    Along (fun s e => some (bookStep s e)) (fun s e => Proper s.ledger e.2) ⟨⟨[], twoUsers⟩, .empty⟩ peerRun ∧
    (peerRun.foldl bookStep ⟨⟨[], twoUsers⟩, .empty⟩).ledger.conns = [] ∧
    ((peerRun.foldl bookStep ⟨⟨[], twoUsers⟩, .empty⟩).st.slot 1 .user1).saved.isSome = true ∧
    ¬ Along (fun s e => some (bookStep s e)) (fun s e => Returned e.1 s.st s.ledger e.2)
      ⟨⟨[], twoUsers⟩, .empty⟩ peerRun := by
  have hproper : Along (fun s e => some (bookStep s e)) (fun s e => Proper s.ledger e.2)
      ⟨⟨[], twoUsers⟩, .empty⟩ peerRun := by
    simp only [peerRun, Lib.along_total]
    exact ⟨trivial, trivial, by simp [Proper, bookStep, Ledger.note, Ledger.empty],
      by simp [Proper, bookStep, Ledger.note], trivial⟩
  have hsaved : ((peerRun.foldl bookStep ⟨⟨[], twoUsers⟩, .empty⟩).st.slot 1 .user1).saved.isSome = true := by
    decide +kernel
  refine ⟨hproper, by decide +kernel, hsaved, fun h => ?_⟩
  simp only [peerRun, Lib.along_total] at h
  have hlent := h.2.2.2.1.saved 1 .user1
  have hnone : ((peerRun.foldl bookStep ⟨⟨[], twoUsers⟩, .empty⟩).ledger.loan 1 .user1) = none := by
    decide +kernel
  have heq : ((peerRun.foldl bookStep ⟨⟨[], twoUsers⟩, .empty⟩).st.slot 1 .user1).saved =
      ((peerRun.foldl bookStep ⟨⟨[], twoUsers⟩, .empty⟩).ledger.loan 1 .user1).map (·.own) := hlent
  rw [heq, hnone] at hsaved
  cases hsaved

end Anoubis.Pe

import Anoubis.Proto.Notify

/-! Who gets which notification.

    A group of an ordinary user can only hold registrations of that user, or the one for status
    messages; with uid -1 it holds the latter only. What a registration matches is then of the user or
    a status message. The invariant speaks about the registrations of all groups and about everything
    that was sent, and every call keeps it. -/

namespace Anoubis.Proto.Notify

open List

open Anoubis.Lib Option

variable {stat : U32}

/-- What `anoubis_register_ok` lets a group of another user than root hold. -/
def RegsOk (stat : U32) (ng : Group) : Prop :=
  ng.uid ≠ 0 → ∀ reg ∈ ng.regs, reg = ⟨0, 0, stat⟩ ∨ (reg.uid = ng.uid ∧ ng.uid ≠ -1)

/-- Messages for a user who is not root. -/
def Allowed (stat u : U32) : Msg → Prop
  | .policychange uid => uid = u
  | .pgchange uid => uid = u
  | .statusnotify => True
  | .event _ uid _ subsystem _ => uid = u ∨ (uid = 0 ∧ subsystem = stat)

/-- Status messages and statistics, which are about no user. -/
def Impersonal (stat : U32) : Msg → Prop
  | .policychange _ => False
  | .pgchange _ => False
  | .statusnotify => True
  | .event _ uid _ subsystem _ => uid = 0 ∧ subsystem = stat

/-- What a group may be sent. -/
def Permitted (stat : U32) (x : Sent) : Prop :=
  ∀ m, x.out = .msg m → x.uid ≠ 0 → Allowed stat x.uid m ∧ (x.uid = -1 → Impersonal stat m)

structure Confined (stat : U32) (s : Store) : Prop where
  regs : ∀ g ng, s.groups g = some ng → RegsOk stat ng
  sent : ∀ x ∈ s.sent, Permitted stat x

/-! ### Registrations -/

variable {ng : Group}

theorem regsOk_cons {uid ruleid subsystem : U32} (h : RegsOk stat ng)
    (hok : anoubisRegisterOk stat ng uid ruleid subsystem = true) :
    RegsOk stat { ng with regs := ⟨ruleid, uid, subsystem⟩ :: ng.regs } := by
  intro hu reg hreg
  rcases mem_cons.mp hreg with rfl | hreg
  · rw [anoubisRegisterOk] at hok
    by_cases hs : subsystem = stat
    · rw [if_pos hs, Bool.and_eq_true, beq_iff_eq, beq_iff_eq] at hok
      left
      rw [hok.1, hok.2, hs]
    · rw [if_neg hs] at hok
      simp only [Bool.or_eq_true, beq_iff_eq, Bool.and_eq_true, bne_iff_ne] at hok
      rcases hok with hok | ⟨he, hne⟩
      · exact absurd hok hu
      · exact .inr ⟨he.symm, hne⟩
  · exact h hu reg hreg

theorem regsOk_sublist {regs : List Reg} {pending : List ℕ} (h : RegsOk stat ng) (hsub : regs.Sublist ng.regs) :
    RegsOk stat { ng with regs := regs, pending := pending } :=
  fun hu reg hreg => h hu reg (hsub.subset hreg)

/-- A match in a group of another user than root: it is about this user, or about statistics. -/
theorem match_own {uid ruleid subsystem : U32} (hstat : stat ≠ 0) (h : RegsOk stat ng) (hu : ng.uid ≠ 0)
    (hm : regMatchAll ng uid ruleid subsystem = true) :
    (uid = 0 ∧ subsystem = stat) ∨ (uid = ng.uid ∧ ng.uid ≠ -1) := by
  obtain ⟨reg, hreg, hm⟩ := any_eq_true.mp hm
  simp only [regMatch, Bool.and_eq_true, Bool.or_eq_true, beq_iff_eq] at hm
  obtain ⟨⟨huid, -⟩, hsub⟩ := hm
  rcases h hu reg hreg with rfl | ⟨he, hne⟩
  · left
    refine ⟨?_, ?_⟩
    · rcases huid with hneg | rfl
      · have hne : (0 : U32) ≠ -1 := by decide
        exact absurd hneg hne
      · rfl
    · rcases hsub with h0 | rfl
      · exact absurd h0 hstat
      · rfl
  · right
    rcases huid with hneg | rfl
    · exact absurd (he ▸ hneg) hne
    · exact ⟨he, hne⟩

/-! ### Single accesses -/

theorem keeps_readGroup (g : ℕ) :
    Keeps (Confined stat) (readGroup g) (fun ng s => RegsOk stat ng ∧ Confined stat s) := by
  intro s ng s' hs hr
  obtain ⟨ng', hg, he⟩ := map_eq_some_iff.mp hr
  obtain ⟨rfl, rfl⟩ := Prod.mk.inj he
  exact ⟨hs.regs g ng' hg, hs⟩

/-- A program that leaves groups and channels alone. -/
theorem keeps_of_frame {α : Type} {m : M α}
    (h : ∀ s a s', m.run s = some (a, s') → s'.groups = s.groups ∧ s'.sent = s.sent) :
    Keeps (Confined stat) m (fun _ => Confined stat) := by
  intro s a s' hs hr
  obtain ⟨hg, hx⟩ := h s a s' hr
  exact ⟨fun g ng hng => hs.regs g ng (hg ▸ hng), fun x hm => hs.sent x (hx ▸ hm)⟩

theorem keeps_readHead (h : ℕ) : Keeps (Confined stat) (readHead h) (fun _ => Confined stat) := by
  refine keeps_of_frame fun s a s' hr => ?_
  obtain ⟨x, -, he⟩ := map_eq_some_iff.mp hr
  cases he
  exact ⟨rfl, rfl⟩

theorem keeps_readEvent (e : ℕ) : Keeps (Confined stat) (readEvent e) (fun _ => Confined stat) := by
  refine keeps_of_frame fun s a s' hr => ?_
  obtain ⟨x, -, he⟩ := map_eq_some_iff.mp hr
  cases he
  exact ⟨rfl, rfl⟩

theorem keeps_deref (p : Option ℕ) : Keeps (Confined stat) (deref p) (fun _ => Confined stat) := by
  refine keeps_of_frame fun s a s' hr => ?_
  obtain ⟨x, -, he⟩ := map_eq_some_iff.mp hr
  cases he
  exact ⟨rfl, rfl⟩

theorem keeps_writeHead (h : ℕ) (x : Option Head) :
    Keeps (Confined stat) (writeHead h x) (fun _ => Confined stat) := by
  refine keeps_of_frame fun s a s' hr => ?_
  cases hr
  exact ⟨rfl, rfl⟩

theorem keeps_writeEvent (e : ℕ) (x : Option Event) :
    Keeps (Confined stat) (writeEvent e x) (fun _ => Confined stat) := by
  refine keeps_of_frame fun s a s' hr => ?_
  cases hr
  exact ⟨rfl, rfl⟩

theorem keeps_note (h : ℕ) (d : Deed) : Keeps (Confined stat) (note h d) (fun _ => Confined stat) := by
  refine keeps_of_frame fun s a s' hr => ?_
  cases hr
  exact ⟨rfl, rfl⟩

theorem keeps_malloc : Keeps (Confined stat) malloc (fun _ => Confined stat) := by
  refine keeps_of_frame fun s a s' hr => ?_
  cases hr
  exact ⟨rfl, rfl⟩

theorem keeps_findToken (ng : Group) (token : ℕ) :
    Keeps (Confined stat) (findToken ng token) (fun _ => Confined stat) := by
  refine keeps_of_frame fun s a s' hr => ?_
  cases hr
  exact ⟨rfl, rfl⟩

theorem keeps_writeGroup (g : ℕ) {x : Option Group} (hx : ∀ ng, x = some ng → RegsOk stat ng) :
    Keeps (Confined stat) (writeGroup g x) (fun _ => Confined stat) := by
  intro s a s' hs hr
  cases hr
  refine ⟨fun g' ng hng => ?_, hs.sent⟩
  by_cases hg : g' = g
  · subst hg
    exact hx ng (by simpa using hng)
  · exact hs.regs g' ng (by simpa [Function.update_of_ne hg] using hng)

theorem keeps_send {x : Sent} (hx : Permitted stat x) : Keeps (Confined stat) (send x) (fun _ => Confined stat) := by
  intro s a s' hs hr
  cases hr
  refine ⟨hs.regs, fun y hy => ?_⟩
  rcases mem_append.mp hy with hy | hy
  · exact hs.sent y hy
  · rw [mem_singleton.mp hy]
    exact hx

/-- A result carries no notification. -/
theorem permitted_result (g : ℕ) (u : U32) (token : ℕ) (uid error : U32) (you : Bool) :
    Permitted stat ⟨g, u, .result token uid error you⟩ :=
  fun _ hm => nomatch hm

/-! ### Events and heads -/

theorem keeps_dropVerdict (e : ℕ) : Keeps (Confined stat) (dropVerdict e) (fun _ => Confined stat) := by
  refine Keeps.bind (keeps_readEvent e) fun ev => ?_
  refine Keeps.ite (fun _ => Keeps.pure fun _ hs => hs) fun _ => ?_
  refine Keeps.ite (fun _ => keeps_writeEvent e _) fun _ => ?_
  refine Keeps.bind (keeps_deref _) fun h => ?_
  refine Keeps.bind (keeps_readHead h) fun head => ?_
  exact Keeps.bind (keeps_writeEvent e _) fun _ => keeps_writeHead h _

theorem keeps_dropReply (e : ℕ) : Keeps (Confined stat) (dropReply e) (fun _ => Confined stat) := by
  refine Keeps.bind (keeps_readEvent e) fun ev => ?_
  refine Keeps.ite (fun _ => Keeps.pure fun _ hs => hs) fun _ => ?_
  refine Keeps.bind (keeps_deref _) fun h => ?_
  refine Keeps.bind (keeps_readHead h) fun head => ?_
  exact Keeps.bind (keeps_writeEvent e _) fun _ => keeps_writeHead h _

theorem keeps_dropFree (e : ℕ) : Keeps (Confined stat) (dropFree e) (fun _ => Confined stat) := by
  refine Keeps.bind (keeps_readEvent e) fun ev => ?_
  refine Keeps.ite (fun _ => ?_) fun _ => Keeps.pure fun _ hs => hs
  refine Keeps.bind (keeps_readGroup _) fun ng => Keeps.pull fun hng => ?_
  refine Keeps.bind (keeps_writeGroup _ fun x hx => ?_) fun _ => keeps_writeEvent e _
  rw [← some.inj hx]
  exact regsOk_sublist hng (.refl _)

theorem keeps_onlyIf {c : Bool} {m : M Unit} (h : Keeps (Confined stat) m (fun _ => Confined stat)) :
    Keeps (Confined stat) (onlyIf c m) (fun _ => Confined stat) :=
  Keeps.ite (fun _ => h) fun _ => Keeps.pure fun _ hs => hs

theorem keeps_dropEvent (e : ℕ) (verdict reply : Bool) :
    Keeps (Confined stat) (dropEvent e verdict reply) (fun _ => Confined stat) :=
  Keeps.bind (keeps_onlyIf (keeps_dropVerdict e)) fun _ =>
    Keeps.bind (keeps_onlyIf (keeps_dropReply e)) fun _ => keeps_dropFree e

theorem keeps_dropEvents (h n : ℕ) : Keeps (Confined stat) (dropEvents h n) (fun _ => Confined stat) := by
  induction n with
  | zero => exact Keeps.failure
  | succ n ih =>
    refine Keeps.bind (keeps_readHead h) fun head => ?_
    split
    · exact Keeps.pure fun _ hs => hs
    · exact Keeps.bind (keeps_dropEvent _ _ _) fun _ => ih

theorem keeps_destroyHead (h : ℕ) : Keeps (Confined stat) (anoubisNotifyDestroyHead h) (fun _ => Confined stat) :=
  Keeps.bind (keeps_readHead h) fun _ =>
    Keeps.bind (keeps_dropEvents h _) fun _ => keeps_writeHead h none

variable (ret : ℕ → ℤ)

theorem keeps_sendResult (verdict : U32) (you : Option ℕ) (uid : U32) (e : ℕ) :
    Keeps (Confined stat) (sendResult ret verdict you uid e) (fun _ => Confined stat) := by
  refine Keeps.bind (keeps_readEvent e) fun nev => ?_
  refine Keeps.bind (keeps_readGroup _) fun ng => Keeps.pull fun _ => ?_
  exact Keeps.ite (fun _ => keeps_dropEvent e true false) fun _ =>
    keeps_send (permitted_result _ _ _ _ _ _)

theorem keeps_sendResults (verdict : U32) (you : Option ℕ) (uid : U32) (h n : ℕ) :
    Keeps (Confined stat) (sendResults ret verdict you uid h n) (fun _ => Confined stat) := by
  induction n with
  | zero => exact Keeps.failure
  | succ n ih =>
    refine Keeps.bind (keeps_readHead h) fun head => ?_
    split
    · exact Keeps.pure fun _ hs => hs
    · refine Keeps.bind (keeps_sendResult ret verdict you uid _) fun _ => ?_
      exact Keeps.bind (keeps_dropEvent _ _ _) fun _ => ih

theorem keeps_sendreply (h : ℕ) (verdict : U32) (you : Option ℕ) (uid : U32) :
    Keeps (Confined stat) (anoubisNotifySendreply ret h verdict you uid) (fun _ => Confined stat) := by
  refine Keeps.ite (fun _ => Keeps.pure fun _ hs => hs) fun _ => ?_
  refine Keeps.bind (keeps_readHead h) fun head => ?_
  refine Keeps.ite (fun _ => Keeps.pure fun _ hs => hs) fun _ => ?_
  refine Keeps.bind (keeps_writeHead h _) fun _ => ?_
  refine Keeps.bind (keeps_sendResults ret verdict you uid h _) fun _ => ?_
  refine Keeps.bind (R := fun _ => Confined stat) ?_ fun _ => Keeps.pure fun _ hs => hs
  refine Keeps.bind (keeps_readHead h) fun head => ?_
  refine Keeps.ite (fun _ => ?_) fun _ => Keeps.pure fun _ hs => hs
  exact Keeps.bind (keeps_note h _) fun _ => keeps_destroyHead h

/-! ### The calls -/

theorem keeps_register (g : ℕ) (uid ruleid subsystem : U32) :
    Keeps (Confined stat) (anoubisNotifyRegister stat g uid ruleid subsystem) (fun _ => Confined stat) := by
  refine Keeps.bind (keeps_readGroup g) fun ng => Keeps.pull fun hng => ?_
  refine Keeps.ite (fun _ => Keeps.pure fun _ hs => hs) fun hok => ?_
  refine Keeps.bind (keeps_writeGroup g fun x hx => ?_) fun _ => Keeps.pure fun _ hs => hs
  rw [← some.inj hx]
  exact regsOk_cons hng (by simpa using hok)

theorem keeps_unregister (g : ℕ) (uid ruleid subsystem : U32) :
    Keeps (Confined stat) (anoubisNotifyUnregister g uid ruleid subsystem) (fun _ => Confined stat) := by
  refine Keeps.bind (keeps_readGroup g) fun ng => Keeps.pull fun hng => ?_
  refine Keeps.ite (fun _ => ?_) fun _ => Keeps.pure fun _ hs => hs
  refine Keeps.bind (keeps_writeGroup g fun x hx => ?_) fun _ => Keeps.pure fun _ hs => hs
  rw [← some.inj hx]
  exact regsOk_sublist hng eraseP_sublist

theorem keeps_deliver (g h : ℕ) {head : Head} (limit : ℕ) (ret : ℤ) (known : Bool) (hng : RegsOk stat ng)
    (hp : Permitted stat ⟨g, ng.uid, .msg head.m⟩) :
    Keeps (Confined stat) (deliver g h ng head limit ret known) (fun _ => Confined stat) := by
  refine Keeps.ite (fun _ => Keeps.pure fun _ hs => hs) fun _ => ?_
  refine Keeps.ite (fun _ => ?_) fun _ => ?_
  · refine Keeps.ite (fun _ => Keeps.pure fun _ hs => hs) fun _ => ?_
    exact Keeps.bind (keeps_send hp) fun _ => Keeps.pure fun _ hs => hs
  · refine Keeps.ite (fun _ => Keeps.pure fun _ hs => hs) fun _ => ?_
    refine Keeps.ite (fun _ => Keeps.pure fun _ hs => hs) fun _ => ?_
    refine Keeps.bind keeps_malloc fun nev => Keeps.bind (keeps_send hp) fun _ => ?_
    refine Keeps.bind (keeps_note h _) fun _ => Keeps.bind (keeps_writeEvent nev _) fun _ => ?_
    refine Keeps.bind (keeps_writeGroup g fun x hx => ?_) fun _ => ?_
    · rw [← some.inj hx]
      exact regsOk_sublist hng (.refl _)
    · exact Keeps.bind (keeps_writeHead h _) fun _ => Keeps.pure fun _ hs => hs

/-- What `anoubis_notify` checks makes the message permitted. -/
theorem permitted_of_match (hstat : stat ≠ 0) (hng : RegsOk stat ng) (g : ℕ) {m : Msg} (h : ng.uid ≠ 0 → match m with
      | .policychange uid => ng.uid = uid ∧ regMatchAll ng uid 0 stat = true
      | .pgchange uid => ng.uid = uid ∧ regMatchAll ng uid 0 stat = true
      | .statusnotify => True
      | .event _ uid ruleid subsystem _ => regMatchAll ng uid ruleid subsystem = true) :
    Permitted stat ⟨g, ng.uid, .msg m⟩ := by
  intro m' hm' hu
  obtain rfl : m = m' := Out.msg.inj hm'
  -- a user cannot be matched by the registration for status messages, whose uid is 0
  have hown : ∀ {uid ruleid subsystem : U32}, ng.uid = uid →
      regMatchAll ng uid ruleid subsystem = true → ng.uid ≠ -1 := by
    rintro uid ruleid subsystem rfl hm
    rcases match_own hstat hng hu hm with ⟨h0, -⟩ | ⟨-, hne⟩
    · exact absurd h0 hu
    · exact hne
  cases m with
  | policychange uid =>
    obtain ⟨he, hm⟩ := h hu
    exact ⟨he.symm, fun hneg => absurd hneg (hown he hm)⟩
  | pgchange uid =>
    obtain ⟨he, hm⟩ := h hu
    exact ⟨he.symm, fun hneg => absurd hneg (hown he hm)⟩
  | statusnotify => exact ⟨trivial, fun _ => trivial⟩
  | event kind uid ruleid subsystem token =>
    rcases match_own hstat hng hu (h hu) with h0 | ⟨he, hne⟩
    · exact ⟨.inr h0, fun _ => h0⟩
    · exact ⟨.inl he, fun hneg => absurd hneg hne⟩

theorem keeps_notify (hstat : stat ≠ 0) (g h limit : ℕ) (ret : ℤ) :
    Keeps (Confined stat) (anoubisNotify stat g h limit ret) (fun _ => Confined stat) := by
  refine Keeps.bind (keeps_readGroup g) fun ng => Keeps.pull fun hng => ?_
  refine Keeps.bind (keeps_readHead h) fun head => ?_
  refine Keeps.bind (keeps_findToken ng _) fun known => ?_
  split
  · refine Keeps.ite (fun _ => Keeps.pure fun _ hs => hs) fun hu => ?_
    refine Keeps.ite (fun _ => Keeps.pure fun _ hs => hs) fun hm => ?_
    refine keeps_deliver g h limit ret _ hng (permitted_of_match hstat hng g fun h0 => ?_)
    simp_all
  · refine Keeps.ite (fun _ => Keeps.pure fun _ hs => hs) fun hu => ?_
    refine Keeps.ite (fun _ => Keeps.pure fun _ hs => hs) fun hm => ?_
    refine keeps_deliver g h limit ret _ hng (permitted_of_match hstat hng g fun h0 => ?_)
    simp_all
  · refine Keeps.ite (fun _ => Keeps.pure fun _ hs => hs) fun hm => ?_
    refine keeps_deliver g h limit ret _ hng (permitted_of_match hstat hng g fun h0 => ?_)
    simp_all
  · refine Keeps.ite (fun _ => Keeps.pure fun _ hs => hs) fun _ => ?_
    refine Keeps.ite (fun _ => Keeps.pure fun _ hs => hs) fun hm => ?_
    refine keeps_deliver g h limit ret _ hng (permitted_of_match hstat hng g fun h0 => ?_)
    simp_all

theorem keeps_answer (g token : ℕ) (verdict : U32) (delegate : Bool) :
    Keeps (Confined stat) (anoubisNotifyAnswer ret g token verdict delegate) (fun _ => Confined stat) := by
  refine Keeps.bind (keeps_readGroup g) fun ng => Keeps.pull fun _ => ?_
  refine Keeps.bind (keeps_findToken ng token) fun nev => ?_
  split
  · exact Keeps.pure fun _ hs => hs
  · refine Keeps.bind (keeps_readEvent _) fun ev => ?_
    refine Keeps.ite (fun _ => Keeps.pure fun _ hs => hs) fun _ => ?_
    refine Keeps.ite (fun _ => ?_) fun _ => ?_
    · exact Keeps.bind (keeps_dropEvent _ _ _) fun _ => Keeps.pure fun _ hs => hs
    · refine Keeps.bind (keeps_deref _) fun h => Keeps.bind (keeps_dropEvent _ _ _) fun _ => ?_
      refine Keeps.bind (keeps_readHead h) fun head => Keeps.bind (keeps_writeHead h _) fun _ => ?_
      refine Keeps.bind (keeps_note h _) fun _ => ?_
      refine Keeps.ite (fun _ => Keeps.pure fun _ hs => hs) fun _ => ?_
      exact Keeps.bind (keeps_sendreply ret h _ _ _) fun _ => Keeps.pure fun _ hs => hs

theorem keeps_orphan (p : Option ℕ) : Keeps (Confined stat) (orphan ret p) (fun _ => Confined stat) := by
  cases p with
  | none => exact Keeps.pure fun _ hs => hs
  | some h =>
    refine Keeps.bind (keeps_readHead h) fun head => ?_
    refine Keeps.ite (fun _ => Keeps.pure fun _ hs => hs) fun _ => ?_
    exact Keeps.bind (keeps_sendreply ret h _ _ _) fun _ => Keeps.pure fun _ hs => hs

theorem keeps_dropPending (g n : ℕ) : Keeps (Confined stat) (dropPending ret g n) (fun _ => Confined stat) := by
  induction n with
  | zero => exact Keeps.failure
  | succ n ih =>
    refine Keeps.bind (keeps_readGroup g) fun ng => Keeps.pull fun _ => ?_
    split
    · exact Keeps.pure fun _ hs => hs
    · refine Keeps.bind (keeps_readEvent _) fun nev => Keeps.bind (keeps_dropEvent _ _ _) fun _ => ?_
      exact Keeps.bind (keeps_orphan ret _) fun _ => ih

theorem keeps_destroy (g : ℕ) : Keeps (Confined stat) (anoubisNotifyDestroy ret g) (fun _ => Confined stat) := by
  refine Keeps.bind (keeps_readGroup g) fun ng => Keeps.pull fun hng => ?_
  refine Keeps.bind (keeps_writeGroup g fun x hx => ?_) fun _ => ?_
  · rw [← some.inj hx]
    exact regsOk_sublist hng (nil_sublist _)
  · exact Keeps.bind (keeps_dropPending ret g _) fun _ => keeps_writeGroup g fun _ hx => nomatch hx

theorem keeps_call (hstat : stat ≠ 0) (op : Op) : Keeps (Confined stat) (op.call stat) (fun _ => Confined stat) := by
  have hpure : ∀ {α : Type} {m : M α}, Keeps (Confined stat) m (fun _ => Confined stat) →
      Keeps (Confined stat) (m >>= fun _ => pure ()) (fun _ => Confined stat) :=
    fun hm => Keeps.bind hm fun _ => Keeps.pure fun _ hs => hs
  cases op with
  | create uid =>
    refine hpure (Keeps.bind keeps_malloc fun g => ?_)
    refine Keeps.bind (keeps_writeGroup g fun x hx => ?_) fun _ => Keeps.pure fun _ hs => hs
    rw [← some.inj hx]
    exact fun _ reg hreg => nomatch hreg
  | register g uid ruleid subsystem => exact hpure (keeps_register g uid ruleid subsystem)
  | unregister g uid ruleid subsystem => exact hpure (keeps_unregister g uid ruleid subsystem)
  | createHead m =>
    refine hpure (Keeps.bind keeps_malloc fun h => ?_)
    exact Keeps.bind (keeps_writeHead h _) fun _ => Keeps.pure fun _ hs => hs
  | notify g h limit ret => exact hpure (keeps_notify hstat g h limit ret)
  | answer g token verdict delegate ret => exact hpure (keeps_answer ret g token verdict delegate)
  | sendreply h verdict you uid ret =>
    refine Keeps.bind (R := fun _ => Confined stat) ?_ fun _ =>
      hpure (keeps_sendreply ret h verdict you uid)
    refine Keeps.bind (keeps_readHead h) fun head => ?_
    exact Keeps.ite (fun _ => keeps_note h _) fun _ => Keeps.pure fun _ hs => hs
  | destroy g ret => exact keeps_destroy ret g
  | destroyHead h => exact Keeps.bind (keeps_note h _) fun _ => keeps_destroyHead h

theorem confined_step (hstat : stat ≠ 0) {s s' : Store} {op : Op} (hs : Confined stat s)
    (h : step stat s op = some s') : Confined stat s' := by
  obtain ⟨⟨a, s₁⟩, hr, rfl⟩ := map_eq_some_iff.mp h
  exact keeps_call hstat op s a s₁ hs hr

/-- Whatever the clients register for, and whatever else happens: a message reaches a group of another
    user than root only if it is about this user or about no user, and a group of uid -1 only in the
    latter case. -/
theorem notify_confidential (hstat : stat ≠ 0) {ops : List Op} {s : Store}
    (hrun : runs (step stat) Store.init ops = some s) {x : Sent} (hx : x ∈ s.sent) {m : Msg}
    (hm : x.out = .msg m) (hu : x.uid ≠ 0) :
    Allowed stat x.uid m ∧ (x.uid = -1 → Impersonal stat m) := by
  have hinit : Confined stat Store.init :=
    ⟨(fun g ng hg => nomatch hg), (fun x hx => nomatch hx)⟩
  have hs : Confined stat s :=
    runs_keep (fun s op s' hI h => confined_step hstat hI h) hinit hrun
  exact hs.sent x hx m hm hu

/-- An escalation for the user 1000, who registered for all of his events. -/
theorem notify_confidential_ask :
    (runs (step 33) Store.init [.create 1000, .register 0 1000 0 0,
        .createHead (.event .ask 1000 7 10 99), .notify 0 1 32 0]).map Store.sent =
      some [⟨0, 1000, .msg (.event .ask 1000 7 10 99)⟩] ∧
    Allowed 33 1000 (.event .ask 1000 7 10 99) := by
  have hrun : (runs (step 33) Store.init [.create 1000, .register 0 1000 0 0,
      .createHead (.event .ask 1000 7 10 99), .notify 0 1 32 0]).map Store.sent =
      some [⟨0, 1000, .msg (.event .ask 1000 7 10 99)⟩] := by decide
  obtain ⟨s, hs, hsent⟩ := Option.map_eq_some_iff.mp hrun
  refine ⟨hrun, (notify_confidential (by decide) hs (x := ⟨0, 1000, _⟩) ?_ rfl (by decide)).1⟩
  rw [hsent]
  exact List.mem_singleton.mpr rfl

end Anoubis.Proto.Notify

import Anoubis.Proto.NotifyLinks

/-! The verdict of an escalation.

    Every head has a history: to whom the escalation was delivered, who answered or delegated it, who
    cancelled it, and the run of the callback. A head that is alive has only been delegated so far and
    still waits for somebody; the history of a dead one ends with the callback (or the head was
    destroyed by its owner), and the verdict is the one the history asks for.

        deliver*  answer(delegate)*  -->  answer(decide) finish      the first decision
                                     -->  finish                     the last peer has left
                                     -->  cancel finish              the policy engine gave up      -/

namespace Anoubis.Proto.Notify

open Function

open Anoubis.Lib List

/-! ### Histories -/

/-- What happened to the head `h`. -/
def hist (s : Store) (h : ℕ) : List Deed :=
  s.log.filterMap (fun x => if x.1 = h then some x.2 else none)

/-- The answers in their order, each with the mark of a delegation. -/
def answers (l : List Deed) : List (U32 × Bool) :=
  l.filterMap (fun d => match d with
    | .answer v delegate => some (v, delegate)
    | _ => none)

/-- The verdict of the one who cancelled. -/
def canceller (l : List Deed) : Option U32 :=
  l.findSome? (fun d => match d with
    | .cancel v => some v
    | _ => none)

/-- The verdict of the first answer that decides, of the last delegation, or ANOUBIS_E_IO. -/
def collected (l : List (U32 × Bool)) : U32 :=
  match l.find? (fun a => !a.2) with
  | some a => a.1
  | none => (l.getLast?.map Prod.fst).getD eIo

def verdictOf (l : List Deed) : U32 := (canceller l).getD (collected (answers l))

def isFinish : Deed → Bool
  | .finish _ => true
  | _ => false

/-- Only deliveries and delegations so far. -/
def Undecided (l : List Deed) : Prop :=
  ∀ d ∈ l, (∃ g, d = .deliver g) ∨ (∃ v, d = .answer v true)

/-- The head of an escalation that is not finished. -/
structure Going (hd : Head) (l : List Deed) : Prop where
  undecided : Undecided l
  verdict : hd.verdict = verdictOf l
  waits : (∃ g, Deed.deliver g ∈ l) → hd.eventcount ≠ 0
  listed : hd.events ≠ [] → ∃ g, Deed.deliver g ∈ l

/-- The history of a head that is gone. -/
def Ended (l : List Deed) : Prop :=
  l = [] ∨ ∃ pre d, l = pre ++ [d] ∧ (∀ d' ∈ pre, isFinish d' = false) ∧
    (d = .destroy ∨ d = .finish (verdictOf pre))

structure Books (s : Store) : Prop where
  going : ∀ h hd, s.heads h = some hd → hd.finish = true → Going hd (hist s h)
  plain : ∀ h hd, s.heads h = some hd → hd.finish = false → hist s h = []
  ended : ∀ h, s.heads h = none → Ended (hist s h)
  fresh : ∀ h, s.next ≤ h → hist s h = []

variable {l : List Deed} {s' : Store} {h g e : ℕ} {stat : U32} {hd : Head}

theorem Undecided.canceller (h : Undecided l) : canceller l = none := by
  refine findSome?_eq_none_iff.mpr fun d hd => ?_
  rcases h d hd with ⟨g, rfl⟩ | ⟨v, rfl⟩ <;> rfl

theorem Undecided.not_finish (h : Undecided l) : ∀ d ∈ l, isFinish d = false := by
  intro d hd
  rcases h d hd with ⟨g, rfl⟩ | ⟨v, rfl⟩ <;> rfl

theorem Undecided.delegated (h : Undecided l) : ∀ a ∈ answers l, a.2 = true := by
  intro a ha
  obtain ⟨d, hd, hda⟩ := mem_filterMap.mp ha
  rcases h d hd with ⟨g, rfl⟩ | ⟨v, rfl⟩
  · cases hda
  · rw [← Option.some.inj hda]

theorem Undecided.append (h : Undecided l) {d : Deed} (hd : (∃ g, d = .deliver g) ∨ (∃ v, d = .answer v true)) :
    Undecided (l ++ [d]) := by
  intro d' hd'
  rcases mem_append.mp hd' with hd' | hd'
  · exact h d' hd'
  · rw [mem_singleton.mp hd']
    exact hd

theorem verdictOf_deliver (g : ℕ) : verdictOf (l ++ [.deliver g]) = verdictOf l := by
  simp [verdictOf, canceller, answers, filterMap_append, findSome?_append]

/-- The next answer to an undecided escalation sets its verdict. -/
theorem verdictOf_answer (h : Undecided l) (v : U32) (delegate : Bool) :
    verdictOf (l ++ [.answer v delegate]) = v := by
  have hc : canceller (l ++ [.answer v delegate]) = none := by
    rw [canceller, findSome?_append, ← canceller, h.canceller]
    rfl
  have ha : answers (l ++ [.answer v delegate]) = answers l ++ [(v, delegate)] := by
    simp [answers, filterMap_append]
  have hnone : (answers l).find? (fun a => !a.2) = none := by
    refine find?_eq_none.mpr fun a hm => ?_
    simp [h.delegated a hm]
  rw [verdictOf, hc, Option.getD_none, ha, collected, find?_append, hnone, Option.none_or]
  cases delegate <;> simp

theorem verdictOf_cancel (h : Undecided l) (v : U32) : verdictOf (l ++ [.cancel v]) = v := by
  have hc : canceller (l ++ [.cancel v]) = some v := by
    rw [canceller, findSome?_append, ← canceller, h.canceller]
    rfl
  rw [verdictOf, hc]
  rfl

theorem hist_append {s : Store} (hl : s'.log = s.log ++ l.map (fun d => (h, d))) : hist s' h = hist s h ++ l := by
  rw [hist, hl, filterMap_append, hist]
  congr 1
  induction l with
  | nil => rfl
  | cons d l ih => simp

theorem hist_other {s : Store} {k : ℕ} (hk : k ≠ h) (hl : s'.log = s.log ++ l.map (fun d => (h, d))) :
    hist s' k = hist s k := by
  rw [hist, hl, filterMap_append, hist]
  simp [Ne.symm hk]

/-! ### One head at a time -/

/-- What a history has to be for the head with this address. -/
def Kept (o : Option Head) (l : List Deed) : Prop :=
  match o with
  | none => Ended l
  | some hd => if hd.finish then Going hd l else l = []

theorem books_iff {s : Store} : Books s ↔ (∀ h, Kept (s.heads h) (hist s h)) ∧ ∀ h, s.next ≤ h → hist s h = [] := by
  constructor
  · intro hB
    refine ⟨fun h => ?_, hB.fresh⟩
    cases hh : s.heads h with
    | none => exact hB.ended h hh
    | some hd =>
      by_cases hf : hd.finish = true
      · rw [Kept, if_pos hf]
        exact hB.going h hd hh hf
      · rw [Kept, if_neg hf]
        exact hB.plain h hd hh (by simpa using hf)
  · rintro ⟨hk, hfresh⟩
    refine ⟨fun h hd hh hf => ?_, fun h hd hh hf => ?_, fun h hh => ?_, hfresh⟩
    · have := hk h
      rwa [hh, Kept, if_pos hf] at this
    · have := hk h
      rwa [hh, Kept, if_neg (by simp [hf])] at this
    · have := hk h
      rwa [hh] at this

/-- A call that is about one head. -/
theorem books_around {s : Store} (hB : Books s) (hn : s.next ≤ s'.next) (hlt : h < s'.next)
    (hheads : ∀ k, k ≠ h → s'.heads k = s.heads k) (hl : s'.log = s.log ++ l.map (fun d => (h, d)))
    (hk : Kept (s'.heads h) (hist s h ++ l)) : Books s' := by
  obtain ⟨hkept, hfresh⟩ := books_iff.mp hB
  refine books_iff.mpr ⟨fun k => ?_, fun k hle => ?_⟩
  · by_cases hkh : k = h
    · subst hkh
      rw [hist_append hl]
      exact hk
    · rw [hheads k hkh, hist_other hkh hl]
      exact hkept k
  · have hkh : k ≠ h := by omega
    rw [hist_other hkh hl]
    exact hfresh k (by omega)

/-! ### The calls -/

variable {s : Store}

/-- The head that waits for the event of a token in a group. -/
def openHead (s : Store) (e : ℕ) : Option Head :=
  (s.events e).bind (fun ev => if ev.verdict then none else ev.head.bind s.heads)

def findOpen (s : Store) (g token : ℕ) : Option Head :=
  (s.groups g).bind (fun ng =>
    (ng.pending.find? (fun e => (s.events e).any (·.token == token))).bind (openHead s))

/-- No event of the list is the last hope of a head whose verdict is refused. -/
def Leavable (s : Store) (l : List ℕ) : Prop :=
  ∀ e ∈ l, ∀ hd, openHead s e = some hd → hd.eventcount = 1 → ¬ hd.verdict.toInt < 0

/-- No verdict that `anoubis_notify_sendreply` refuses is left as the last word on an escalation: not
    by the peer who decides, not by the last one to delegate, and not by the last one to leave. -/
def Accepted (s : Store) : Op → Prop
  | .answer g token verdict delegate _ =>
    ∀ hd, findOpen s g token = some hd → delegate = false ∨ hd.eventcount = 1 → ¬ verdict.toInt < 0
  | .destroy g _ => ∀ ng, s.groups g = some ng → Leavable s ng.pending
  | _ => True

/-- The groups and heads a call is about are there. -/
def Live (s : Store) : Op → Prop
  | .create _ => True
  | .register g _ _ _ => (s.groups g).isSome
  | .unregister g _ _ _ => (s.groups g).isSome
  | .createHead _ => True
  | .notify g h _ _ => (s.groups g).isSome ∧ (s.heads h).isSome
  | .answer g _ _ _ _ => (s.groups g).isSome
  | .sendreply h _ _ _ _ => (s.heads h).isSome
  | .destroy g _ => (s.groups g).isSome
  | .destroyHead h => (s.heads h).isSome

/-- A call that changes neither heads nor histories. -/
theorem books_same (hB : Books s) (hn : s.next ≤ s'.next) (hh : s'.heads = s.heads) (hl : s'.log = s.log) :
    Books s' := by
  have hhist : ∀ h, hist s' h = hist s h := by
    intro h
    rw [hist, hl, hist]
  obtain ⟨hkept, hfresh⟩ := books_iff.mp hB
  refine books_iff.mpr ⟨fun h => ?_, fun h hle => ?_⟩
  · rw [hh, hhist]
    exact hkept h
  · rw [hhist]
    exact hfresh h (hn.trans hle)

theorem register_sound (hL : Linked none s) (hg : (s.groups g).isSome) (uid ruleid subsystem : U32) :
    ∃ r s', (anoubisNotifyRegister stat g uid ruleid subsystem).run s = some (r, s') ∧
      Linked none s' ∧ (Books s → Books s') := by
  obtain ⟨ng, hng⟩ := Option.isSome_iff_exists.mp hg
  rw [anoubisNotifyRegister, run_bind (run_readGroup hng)]
  by_cases hok : (!anoubisRegisterOk stat ng uid ruleid subsystem) = true
  · rw [if_pos hok]
    exact ⟨_, s, rfl, hL, id⟩
  · rw [if_neg hok]
    exact ⟨0, _, rfl, linked_writeGroup hL hng rfl, fun hB => books_same hB le_rfl rfl rfl⟩

theorem unregister_sound (hL : Linked none s) (hg : (s.groups g).isSome) (uid ruleid subsystem : U32) :
    ∃ r s', (anoubisNotifyUnregister g uid ruleid subsystem).run s = some (r, s') ∧
      Linked none s' ∧ (Books s → Books s') := by
  obtain ⟨ng, hng⟩ := Option.isSome_iff_exists.mp hg
  rw [anoubisNotifyUnregister, run_bind (run_readGroup hng)]
  by_cases hok : regMatchAll ng uid ruleid subsystem = true
  · rw [if_pos hok]
    exact ⟨0, _, rfl, linked_writeGroup hL hng rfl, fun hB => books_same hB le_rfl rfl rfl⟩
  · rw [if_neg hok]
    exact ⟨_, s, rfl, hL, id⟩

theorem createHead_sound (hL : Linked none s) (m : Msg) :
    ∃ r s', (anoubisNotifyCreateHead m).run s = some (r, s') ∧ Linked none s' ∧ (Books s → Books s') := by
  refine ⟨s.next, _, rfl, linked_createHead hL m, fun hB => ?_⟩
  have hnil : hist s s.next = [] := hB.fresh s.next le_rfl
  refine books_around (h := s.next) (l := []) hB (Nat.le_succ _) (Nat.lt_succ_self _)
    (fun k hk => update_of_ne hk ..) (by simp) ?_
  change Kept (Function.update s.heads s.next _ s.next) _
  rw [hnil, update_self]
  by_cases hask : m.isAsk = true
  · rw [Kept, if_pos hask]
    exact ⟨(fun d hd => nomatch hd), rfl, (fun ⟨g, hg⟩ => nomatch hg), (absurd rfl)⟩
  · rw [Kept, if_neg hask]
    rfl

/-- The events of the group that carry the token, as `findToken` sees them. -/
theorem run_findToken (s : Store) (ng : Group) (token : ℕ) : (findToken ng token).run s =
    some (ng.pending.find? (fun e => (s.events e).any (·.token == token)), s) := rfl

variable {ng : Group} {v : U32} {ev : Event} {op : Op}

theorem deliver_sound (hL : Linked none s) (hg : s.groups g = some ng) (hh : s.heads h = some hd) (limit : ℕ)
    (ret : ℤ) {known : Option ℕ} (hk : ng.pending.find? (fun e => (s.events e).any (·.token == hd.m.token)) = known) :
    ∃ r s', (deliver g h ng hd limit ret known.isSome).run s = some (r, s') ∧ Linked none s' ∧
      (Books s → Books s') := by
  cases known with
  | some e => exact ⟨_, s, rfl, hL, id⟩
  | none =>
    rw [deliver, if_neg (by simp)]
    by_cases hask : hd.m.isAsk = true
    · rw [if_neg (by simp [hask])]
      by_cases hlim : limit ≠ 0 ∧ limit ≤ ng.pending.length
      · rw [if_pos hlim]
        exact ⟨_, s, rfl, hL, id⟩
      · rw [if_neg hlim]
        by_cases hret : ret < 0
        · rw [if_pos hret]
          exact ⟨_, s, rfl, hL, id⟩
        · rw [if_neg hret]
          have htok : ∀ e ∈ ng.pending, ∀ ev, s.events e = some ev → ev.token ≠ hd.m.token := by
            intro e he ev hev
            have := find?_eq_none.mp hk e he
            simpa [hev] using this
          refine ⟨1, delivered s g h ng hd, rfl, linked_delivered hL hg hh hask htok, fun hB => ?_⟩
          have hfin : hd.finish = true := (hL.asked h hd hh).1.trans hask
          have hgo : Going hd (hist s h) := hB.going h hd hh hfin
          refine books_around (h := h) (l := [.deliver g]) hB (Nat.le_succ _)
            (Nat.lt_succ_of_lt (hL.headNext h hd hh)) (fun k hk => update_of_ne hk ..) rfl ?_
          have hself : (delivered s g h ng hd).heads h = some { hd with
              events := s.next :: hd.events, eventcount := hd.eventcount + 1 } :=
            update_self ..
          rw [hself, Kept, if_pos hfin]
          refine ⟨hgo.undecided.append (.inl ⟨g, rfl⟩), ?_, fun _ => ?_, fun _ => ⟨g, by simp⟩⟩
          · rw [verdictOf_deliver]
            exact hgo.verdict
          · have hc := hL.count h hd hh nofun
            simp only
            omega
    · rw [if_pos (by simpa using hask)]
      by_cases hret : ret < 0
      · rw [if_pos hret]
        exact ⟨_, s, rfl, hL, id⟩
      · rw [if_neg hret]
        exact ⟨1, _, rfl, linked_sent hL _, fun hB => books_same hB le_rfl rfl rfl⟩

theorem notify_sound (hL : Linked none s) (hg : (s.groups g).isSome) (hh : (s.heads h).isSome) (limit : ℕ) (ret : ℤ) :
    ∃ r s', (anoubisNotify stat g h limit ret).run s = some (r, s') ∧ Linked none s' ∧ (Books s → Books s') := by
  obtain ⟨ng, hng⟩ := Option.isSome_iff_exists.mp hg
  obtain ⟨hd, hhd⟩ := Option.isSome_iff_exists.mp hh
  rw [anoubisNotify, run_bind (run_readGroup hng), run_bind (run_readHead hhd),
    run_bind (run_findToken s ng hd.m.token)]
  have hstay : ∀ r : ℤ, ∃ r' s', (pure r : M ℤ).run s = some (r', s') ∧ Linked none s' ∧
      (Books s → Books s') := fun r => ⟨r, s, rfl, hL, id⟩
  have hdel := deliver_sound hL hng hhd limit ret rfl
  split
  · split
    · exact hstay _
    · split
      · exact hstay _
      · exact hdel
  · split
    · exact hstay _
    · split
      · exact hstay _
      · exact hdel
  · split
    · exact hstay _
    · exact hdel
  · split
    · exact hstay _
    · split
      · exact hstay _
      · exact hdel

/-- A finished escalation. -/
theorem ended_finish (h : ∀ d ∈ l, isFinish d = false) (hv : verdictOf l = v) : Ended (l ++ [.finish v]) :=
  .inr ⟨l, _, rfl, h, .inr (by rw [hv])⟩

theorem answerHead_sound (hL : Linked none s) (he : s.events e = some ev) (hv : ev.verdict = false)
    (hhead : ev.head = some h) (hh : s.heads h = some hd) (ret : ℕ → ℤ) (ng : Group) (verdict : U32)
    (delegate : Bool) :
    ∃ r s', (answerHead ret ng e h verdict delegate).run s = some (r, s') ∧ Linked none s' ∧
      (delegate = false ∨ hd.eventcount = 1 → s'.log = s.log ++ (h, .answer verdict delegate) ::
        if verdict.toInt < 0 then [] else [(h, .finish verdict)]) ∧
      ((delegate = false ∨ hd.eventcount = 1 → ¬ verdict.toInt < 0) → Books s → Books s') := by
  have hfin : hd.finish = true := by
    rw [(hL.asked h hd hh).1]
    by_contra hno
    have hnil := (hL.asked h hd hh).2 (by simpa using hno)
    obtain ⟨hd₀, hhd₀, hm, -⟩ := hL.head e ev h he hhead
    obtain rfl : hd = hd₀ := Option.some.inj (hh.symm.trans hhd₀)
    rw [hnil] at hm
    cases hm
  -- the store after the event was dropped, the verdict remembered and the answer noted
  have hL₁ : Linked none (dropped s e ev true false) := linked_dropped hL he fun hr => nomatch hr
  let hd₁ : Head := hd.unlink e ev true false
  have hh₁ : (dropped s e ev true false).heads h = some hd₁ := by
    rw [dropped_heads, hh, hhead]
    simp [hd₁]
  have hcount : hd₁.eventcount = hd.eventcount - 1 := by simp [hd₁, Head.unlink, hv]
  let hd₂ : Head := { hd₁ with verdict := verdict, uid := ng.uid, you := some e }
  let s₂ : Store := { dropped s e ev true false with
    heads := Function.update (dropped s e ev true false).heads h (some hd₂)
    log := (dropped s e ev true false).log ++ [(h, .answer verdict delegate)] }
  have hrep : hd₂.reply = false := hL.unanswered h hd hh (Option.some_ne_none h).symm hfin
  have hw₂ : Linked none { dropped s e ev true false with
      heads := Function.update (dropped s e ev true false).heads h (some hd₂) } :=
    linked_writeHead hL₁ hh₁ rfl rfl rfl rfl fun _ _ => hrep
  have hL₂ : Linked none s₂ := linked_log hw₂ _
  have hh₂ : s₂.heads h = some hd₂ := update_self ..
  have hnext₂ : s₂.next = s.next := dropped_next true false
  have hother₂ : ∀ k, k ≠ h → s₂.heads k = s.heads k := by
    intro k hk
    refine (update_of_ne hk ..).trans ((around_dropped s he true false).heads k ?_)
    rw [hhead]
    exact fun hkh => hk (Option.some.inj hkh).symm
  have hlog₂ : s₂.log = s.log ++ [(h, .answer verdict delegate)] :=
    congrArg (· ++ _) (dropped_log true false)
  have hlt : h < s.next := hL.headNext h hd hh
  have hw : (writeHead h (some hd₂) >>= fun _ => note h (.answer verdict delegate)).run
      (dropped s e ev true false) = some ((), s₂) := rfl
  rw [answerHead, run_bind (dropEvent_run hL he true false), run_bind (run_readHead hh₁), ← bind_assoc, run_bind hw]
  by_cases hwait : (delegate && hd₁.eventcount != 0) = true
  · rw [if_pos hwait]
    obtain ⟨rfl, hne⟩ : delegate = true ∧ hd₁.eventcount ≠ 0 := by simpa using hwait
    refine ⟨0, s₂, rfl, hL₂, fun hlast => ?_, fun _ hB => ?_⟩
    · rcases hlast with hlast | hlast
      · cases hlast
      · exact absurd (by omega) hne
    have hgo : Going hd (hist s h) := hB.going h hd hh hfin
    refine books_around (h := h) (l := [.answer verdict true]) hB hnext₂.ge (hnext₂ ▸ hlt) hother₂ hlog₂ ?_
    rw [hh₂, Kept, if_pos (show hd₂.finish = true from hfin)]
    refine ⟨hgo.undecided.append (.inr ⟨verdict, rfl⟩), ?_, fun _ => hne, fun hev => ?_⟩
    · exact (verdictOf_answer hgo.undecided verdict true).symm
    · obtain ⟨g, hg⟩ := hgo.listed hev
      exact ⟨g, mem_append_left _ hg⟩
  · rw [if_neg hwait]
    by_cases hneg : verdict.toInt < 0
    · rw [run_bind (sendreply_refused s₂ hneg ret (some e) ng.uid)]
      refine ⟨0, s₂, rfl, hL₂, fun _ => by rw [if_pos hneg, hlog₂], fun hok _ => absurd hneg (hok ?_)⟩
      cases delegate with
      | false => exact .inl rfl
      | true =>
        right
        have h0 : hd₁.eventcount = 0 := by simpa using hwait
        omega
    · obtain ⟨s₃, hr₃, hL₃, ha₃, hl₃, hh₃⟩ := sendreply_finish hL₂ hh₂ hfin hrep hneg ret (some e) ng.uid
      rw [run_bind hr₃]
      have hlog₃ : s₃.log = s.log ++ [.answer verdict delegate, .finish verdict].map (fun d => (h, d)) := by
        rw [hl₃, hlog₂, append_assoc]
        rfl
      refine ⟨0, s₃, rfl, hL₃, fun _ => by rw [if_neg hneg]; exact hlog₃, fun _ hB => ?_⟩
      have hgo : Going hd (hist s h) := hB.going h hd hh hfin
      have hnext₃ : s₃.next = s.next := ha₃.next.trans hnext₂
      refine books_around (h := h) hB hnext₃.ge (hnext₃ ▸ hlt) (fun k hk => ?_) hlog₃ ?_
      · rw [ha₃.heads k fun hkh => hk (Option.some.inj hkh).symm, hother₂ k hk]
      · rw [hh₃, Kept, append_cons]
        refine ended_finish (fun d hd => ?_) (verdictOf_answer hgo.undecided verdict delegate)
        rcases mem_append.mp hd with hd | hd
        · exact hgo.undecided.not_finish d hd
        · rw [mem_singleton.mp hd]
          rfl

theorem answer_sound (hL : Linked none s) (hg : (s.groups g).isSome) (ret : ℕ → ℤ) (token : ℕ) (verdict : U32)
    (delegate : Bool) :
    ∃ r s', (anoubisNotifyAnswer ret g token verdict delegate).run s = some (r, s') ∧
      Linked none s' ∧ (Accepted s (.answer g token verdict delegate ret) → Books s → Books s') := by
  obtain ⟨ng, hng⟩ := Option.isSome_iff_exists.mp hg
  rw [anoubisNotifyAnswer, run_bind (run_readGroup hng), run_bind (run_findToken s ng token)]
  cases hfind : ng.pending.find? (fun e => (s.events e).any (·.token == token)) with
  | none => exact ⟨_, s, rfl, hL, fun _ => id⟩
  | some e =>
    obtain ⟨ev, he, -⟩ := (hL.pending g ng hng).2 e (mem_of_find?_eq_some hfind)
    obtain ⟨hrep, -⟩ := hL.flags e ev he
    change ∃ r s', (answerEvent ret ng e verdict delegate).run s = some (r, s') ∧ _
    rw [answerEvent, run_bind (run_readEvent he)]
    by_cases hv : ev.verdict = true
    · rw [if_pos hv]
      exact ⟨_, s, rfl, hL, fun _ => id⟩
    · rw [if_neg hv]
      cases hhead : ev.head with
      | none =>
        rw [if_pos (by rw [hrep, hhead]; rfl), run_bind (dropEvent_run hL he true false)]
        refine ⟨0, _, rfl, linked_dropped hL he nofun, fun _ hB => ?_⟩
        refine books_same hB (dropped_next true false).ge ?_ (dropped_log true false)
        funext k
        rw [dropped_heads, hhead]
        simp
      | some h =>
        obtain ⟨hd, hh, -⟩ := hL.head e ev h he hhead
        have hrep' : ¬ ev.reply = true := by simp [hrep, hhead]
        rw [if_neg hrep', run_bind (run_deref h s)]
        obtain ⟨r, s', hr, hL', -, hB'⟩ := answerHead_sound hL he (by simpa using hv) hhead hh ret ng
          verdict delegate
        refine ⟨r, s', hr, hL', fun hacc => hB' (hacc hd ?_)⟩
        simp [findOpen, openHead, hng, hfind, he, hv, hhead, hh]

theorem sendreply_sound (hL : Linked none s) (hh : (s.heads h).isSome) (ret : ℕ → ℤ) (verdict : U32)
    (you : Option ℕ) (uid : U32) :
    ∃ s', (noteCancel h verdict >>= fun _ => anoubisNotifySendreply ret h verdict you uid >>= fun _ =>
      (pure () : M Unit)).run s = some ((), s') ∧ Linked none s' ∧ (Books s → Books s') := by
  obtain ⟨hd, hhd⟩ := Option.isSome_iff_exists.mp hh
  have hlt : h < s.next := hL.headNext h hd hhd
  by_cases hneg : verdict.toInt < 0
  · have hnote : (noteCancel h verdict).run s = some ((), s) := by
      rw [noteCancel, run_bind (run_readHead hhd), if_neg fun hc => hc.2 hneg]
      rfl
    rw [run_bind hnote, run_bind (sendreply_refused s hneg ret you uid)]
    exact ⟨s, rfl, hL, id⟩
  · by_cases hfin : hd.finish = true
    · let s₁ : Store := { s with log := s.log ++ [(h, .cancel verdict)] }
      have hnote : (noteCancel h verdict).run s = some ((), s₁) := by
        rw [noteCancel, run_bind (run_readHead hhd), if_pos ⟨hfin, hneg⟩]
        rfl
      have hL₁ : Linked none s₁ := linked_log hL _
      have hrep : hd.reply = false := hL.unanswered h hd hhd nofun hfin
      obtain ⟨s₂, hr₂, hL₂, ha₂, hl₂, hh₂⟩ := sendreply_finish hL₁ hhd hfin hrep hneg ret you uid
      rw [run_bind hnote, run_bind hr₂]
      refine ⟨s₂, rfl, hL₂, fun hB => ?_⟩
      have hgo : Going hd (hist s h) := hB.going h hd hhd hfin
      have hl : s₂.log = s.log ++ [.cancel verdict, .finish verdict].map (fun d => (h, d)) := by
        rw [hl₂, append_assoc]
        rfl
      refine books_around (h := h) hB ha₂.next.ge (ha₂.next ▸ hlt) (fun k hk => ?_) hl ?_
      · exact ha₂.heads k fun hkh => hk (Option.some.inj hkh).symm
      · rw [hh₂, Kept, append_cons]
        refine ended_finish (fun d hd => ?_) (verdictOf_cancel hgo.undecided verdict)
        rcases mem_append.mp hd with hd | hd
        · exact hgo.undecided.not_finish d hd
        · rw [mem_singleton.mp hd]
          rfl
    · have hnote : (noteCancel h verdict).run s = some ((), s) := by
        rw [noteCancel, run_bind (run_readHead hhd), if_neg fun hc => hfin hc.1]
        rfl
      have hfin' : hd.finish = false := by simpa using hfin
      obtain ⟨s₂, hd₂, hr₂, hL₂, ha₂, hl₂, hh₂, hf₂⟩ := sendreply_plain hL hhd hfin' hneg ret you uid
      rw [run_bind hnote, run_bind hr₂]
      refine ⟨s₂, rfl, hL₂, fun hB => ?_⟩
      refine books_around (h := h) (l := []) hB ha₂.next.ge (ha₂.next ▸ hlt) (fun k hk => ?_)
        (by simp [hl₂]) ?_
      · exact ha₂.heads k fun hkh => hk (Option.some.inj hkh).symm
      · rw [hh₂, Kept, if_neg (by simp [hf₂]), hB.plain h hd hhd hfin']
        rfl

theorem destroyHead_sound (hL : Linked none s) (hh : (s.heads h).isSome) :
    ∃ s', (noteDestroy h >>= fun _ => anoubisNotifyDestroyHead h).run s = some ((), s') ∧
      Linked none s' ∧ (Books s → Books s') := by
  obtain ⟨hd, hhd⟩ := Option.isSome_iff_exists.mp hh
  let s₁ : Store := { s with log := s.log ++ [(h, .destroy)] }
  have hnote : (noteDestroy h).run s = some ((), s₁) := rfl
  have hL₁ : Linked none s₁ := linked_log hL _
  obtain ⟨s₂, hr₂, hL₂, ha₂, hl₂, hh₂⟩ := destroyHead_run (hL₁.give_up h) hhd
  rw [run_bind hnote]
  refine ⟨s₂, hr₂, hL₂, fun hB => ?_⟩
  refine books_around (h := h) (l := [.destroy]) hB ha₂.next.ge (ha₂.next ▸ hL.headNext h hd hhd)
    (fun k hk => ha₂.heads k fun hkh => hk (Option.some.inj hkh).symm) hl₂ ?_
  rw [hh₂, Kept]
  refine .inr ⟨hist s h, .destroy, rfl, fun d hd' => ?_, .inl rfl⟩
  by_cases hfin : hd.finish = true
  · exact (hB.going h hd hhd hfin).undecided.not_finish d hd'
  · rw [hB.plain h hd hhd (by simpa using hfin)] at hd'
    cases hd'

/-! ### A peer leaves -/

theorem openHead_eq_some : openHead s e = some hd ↔
    ∃ ev h, s.events e = some ev ∧ ev.verdict = false ∧ ev.head = some h ∧ s.heads h = some hd := by
  constructor
  · intro ho
    obtain ⟨ev, he, ho⟩ := Option.bind_eq_some_iff.mp ho
    by_cases hv : ev.verdict = true
    · rw [if_pos hv] at ho
      cases ho
    · rw [if_neg hv] at ho
      obtain ⟨h, hh, hhd⟩ := Option.bind_eq_some_iff.mp ho
      exact ⟨ev, h, he, by simpa using hv, hh, hhd⟩
  · rintro ⟨ev, h, he, hv, hh, hhd⟩
    simp [openHead, he, hv, hh, hhd]

/-- The answer of a peer who is still asked, and whose word decides. -/
theorem answer_decides {token : ℕ} (hL : Linked none s) (hopen : findOpen s g token = some hd) (ret : ℕ → ℤ)
    (verdict : U32) {delegate : Bool} (hlast : delegate = false ∨ hd.eventcount = 1) :
    ∃ h r s', s.heads h = some hd ∧ hd.m.token = token ∧
      (anoubisNotifyAnswer ret g token verdict delegate).run s = some (r, s') ∧
      s'.log = s.log ++ (h, .answer verdict delegate) ::
        if verdict.toInt < 0 then [] else [(h, .finish verdict)] := by
  obtain ⟨ng, hng, ho⟩ := Option.bind_eq_some_iff.mp hopen
  obtain ⟨e, hfind, ho⟩ := Option.bind_eq_some_iff.mp ho
  obtain ⟨ev, h, he, hv, hhead, hh⟩ := openHead_eq_some.mp ho
  obtain ⟨hd₀, hh₀, -, htok⟩ := hL.head e ev h he hhead
  obtain rfl : hd = hd₀ := Option.some.inj (hh.symm.trans hh₀)
  have htoken : ev.token = token := by
    have := find?_some hfind
    simpa [he] using this
  obtain ⟨r, s', hr, -, hlog, -⟩ := answerHead_sound hL he hv hhead hh ret ng verdict delegate
  refine ⟨h, r, s', hh, htok.symm.trans htoken, ?_, hlog hlast⟩
  have hrep : ev.reply = false := by rw [(hL.flags e ev he).1, hhead]; rfl
  rw [anoubisNotifyAnswer, run_bind (run_readGroup hng), run_bind (run_findToken s ng token), hfind]
  change (answerEvent ret ng e verdict delegate).run s = _
  rw [answerEvent, run_bind (run_readEvent he), if_neg (by simp [hv]), if_neg (by simp [hrep]), hhead,
    run_bind (run_deref h s)]
  exact hr

/-- One event of a group that goes away: its head loses it, and is finished with its last verdict if
    nobody else is asked. -/
theorem orphan_sound (hL : Linked none s) (he : s.events e = some ev) (ret : ℕ → ℤ) :
    ∃ s', (dropEvent e true true >>= fun _ => orphan ret ev.head).run s = some ((), s') ∧
      Linked none s' ∧ Around ev.head (dropped s e ev true true) s' ∧
      (s' = dropped s e ev true true ∨ ∃ h, ev.head = some h ∧ s'.heads h = none) ∧
      ((∀ hd, openHead s e = some hd → hd.eventcount = 1 → ¬ hd.verdict.toInt < 0) → Books s → Books s') := by
  have hL₁ : Linked none (dropped s e ev true true) := linked_dropped hL he (by simp)
  rw [run_bind (dropEvent_run hL he true true)]
  cases hhead : ev.head with
  | none =>
    refine ⟨_, rfl, hL₁, Around.refl _ _, .inl rfl, fun _ hB => ?_⟩
    refine books_same hB (dropped_next true true).ge ?_ (dropped_log true true)
    funext k
    rw [dropped_heads, hhead]
    simp
  | some h =>
    obtain ⟨hd, hh, hm, -⟩ := hL.head e ev h he hhead
    let hd₁ : Head := hd.unlink e ev true true
    have hh₁ : (dropped s e ev true true).heads h = some hd₁ := by
      rw [dropped_heads, hh, hhead]
      simp [hd₁]
    have hlt : h < (dropped s e ev true true).next := by
      rw [dropped_next]
      exact hL.headNext h hd hh
    have hother : ∀ k, k ≠ h → (dropped s e ev true true).heads k = s.heads k := by
      intro k hk
      refine (around_dropped s he true true).heads k ?_
      rw [hhead]
      exact fun hkh => hk (Option.some.inj hkh).symm
    have hne : hd.events ≠ [] := ne_nil_of_mem hm
    have hfin : hd.finish = true := by
      rw [(hL.asked h hd hh).1]
      by_contra hno
      exact hne ((hL.asked h hd hh).2 (by simpa using hno))
    change ∃ s', (readHead h >>= _).run _ = _ ∧ _
    rw [run_bind (run_readHead hh₁)]
    by_cases hwait : hd₁.eventcount ≠ 0
    · rw [if_pos hwait]
      refine ⟨_, rfl, hL₁, Around.refl _ _, .inl rfl, fun _ hB => ?_⟩
      have hgo : Going hd (hist s h) := hB.going h hd hh hfin
      refine books_around (h := h) (l := []) hB (dropped_next true true).ge hlt hother (by simp [dropped_log]) ?_
      rw [hh₁, Kept, if_pos (show hd₁.finish = true from hfin), append_nil]
      exact ⟨hgo.undecided, hgo.verdict, fun _ => hwait, fun _ => hgo.listed hne⟩
    · rw [if_neg hwait]
      by_cases hneg : hd₁.verdict.toInt < 0
      · rw [run_bind (sendreply_refused _ hneg ret hd₁.you hd₁.uid)]
        refine ⟨_, rfl, hL₁, Around.refl _ _, .inl rfl, fun hok hB => absurd hneg ?_⟩
        have hcount : hd₁.eventcount = 0 := not_not.mp hwait
        by_cases hv : ev.verdict = true
        · -- a delegated event does not count, so that the head was waiting for nobody before
          have hsame : hd₁.eventcount = hd.eventcount := by simp [hd₁, Head.unlink, hv]
          have hgo : Going hd (hist s h) := hB.going h hd hh hfin
          exact absurd (hsame ▸ hcount) (hgo.waits (hgo.listed hne))
        · have hsub : hd₁.eventcount = hd.eventcount - 1 := by simp [hd₁, Head.unlink, hv]
          refine hok hd (openHead_eq_some.mpr ⟨ev, h, he, by simpa using hv, hhead, hh⟩) ?_
          omega
      · have hrep : hd₁.reply = false := hL.unanswered h hd hh (Option.some_ne_none h).symm hfin
        obtain ⟨s₂, hr₂, hL₂, ha₂, hl₂, hh₂⟩ :=
          sendreply_finish hL₁ hh₁ hfin hrep hneg ret hd₁.you hd₁.uid
        have hnext : s₂.next = s.next := ha₂.next.trans (dropped_next true true)
        rw [run_bind hr₂]
        refine ⟨s₂, rfl, hL₂, ha₂, .inr ⟨h, rfl, hh₂⟩, fun _ hB => ?_⟩
        have hgo : Going hd (hist s h) := hB.going h hd hh hfin
        refine books_around (h := h) (l := [.finish hd.verdict]) hB hnext.ge
          (hnext ▸ hL.headNext h hd hh) (fun k hk => ?_) (by rw [hl₂, dropped_log]; rfl) ?_
        · rw [ha₂.heads k fun hkh => hk (Option.some.inj hkh).symm, hother k hk]
        · rw [hh₂, Kept]
          exact ended_finish hgo.undecided.not_finish hgo.verdict.symm

/-- What is left of the group's list meets the condition as before. -/
theorem leavable_orphan (hL : Linked none s) (hng : s.groups g = some ng) (he : s.events e = some ev)
    (hm : e ∈ ng.pending) (ha : Around ev.head (dropped s e ev true true) s')
    (hend : s' = dropped s e ev true true ∨ ∃ h, ev.head = some h ∧ s'.heads h = none) {l : List ℕ}
    (hl : ∀ k ∈ l, k ∈ ng.pending ∧ k ≠ e) (hleave : Leavable s ng.pending) : Leavable s' l := by
  intro k hk hd hopen
  obtain ⟨hkm, hke⟩ := hl k hk
  refine hleave k hkm hd (openHead_eq_some.mpr ?_)
  obtain ⟨ev', h, hev', hv', hhead', hhd⟩ := openHead_eq_some.mp hopen
  obtain ⟨ev₁, hev₁, hcase⟩ := ha.events k ev' hev'
  rw [dropped_events_of_ne true true hke] at hev₁
  -- the heads of other events have not changed, and no other event of the group has this head
  have hother : ev.head ≠ some h := by
    intro heh
    rcases hend with rfl | ⟨h', heh', hgone⟩
    · rw [dropped_events_of_ne true true hke] at hev'
      obtain ⟨evk, hevk, hgk⟩ := (hL.pending g ng hng).2 k hkm
      obtain ⟨eve, heve, hge⟩ := (hL.pending g ng hng).2 e hm
      obtain rfl : ev' = evk := Option.some.inj (hev'.symm.trans hevk)
      obtain rfl : ev = eve := Option.some.inj (he.symm.trans heve)
      obtain ⟨hdk, hhdk, -, htk⟩ := hL.head k ev' h hev' hhead'
      obtain ⟨hde, hhde, -, hte⟩ := hL.head e ev h he heh
      obtain rfl : hdk = hde := Option.some.inj (hhdk.symm.trans hhde)
      exact hke (hL.tokens k ev' e ev hev' he (hgk.trans hge.symm) (htk.trans hte.symm))
    · obtain rfl : h' = h := Option.some.inj (heh'.symm.trans heh)
      rw [hgone] at hhd
      cases hhd
  have hsame : s'.heads h = s.heads h := by
    rw [ha.heads h hother]
    exact (around_dropped s he true true).heads h hother
  rcases hcase with rfl | ⟨-, hor⟩
  · exact ⟨ev', h, hev₁, hv', hhead', hsame ▸ hhd⟩
  · rcases hor with hp | hp
    · exact absurd (hp.symm.trans hhead') hother
    · rw [hhead'] at hp
      cases hp

/-- The loop of `anoubis_notify_destroy`. -/
theorem dropPending_sound (hL : Linked none s) (hng : s.groups g = some ng) {n : ℕ} (hn : ng.pending.length < n)
    (ret : ℕ → ℤ) :
    ∃ s' ng', (dropPending ret g n).run s = some ((), s') ∧ Linked none s' ∧
      s'.groups g = some ng' ∧ ng'.pending = [] ∧ (Leavable s ng.pending → Books s → Books s') := by
  induction n generalizing s ng with
  | zero => exact absurd hn (Nat.not_lt_zero _)
  | succ n ih =>
    rw [dropPending, run_bind (run_readGroup hng)]
    cases hp : ng.pending with
    | nil => exact ⟨s, ng, rfl, hL, hng, hp, fun _ => id⟩
    | cons e l =>
      have hm : e ∈ ng.pending := hp ▸ mem_cons_self
      obtain ⟨hnd, hmem⟩ := hL.pending g ng hng
      obtain ⟨ev, he, hgrp⟩ := hmem e hm
      obtain ⟨s₁, hr₁, hL₁, ha₁, hend₁, hB₁⟩ := orphan_sound hL he ret
      have hng₀ : (dropped s e ev true true).groups g =
          some { ng with pending := ng.pending.erase e } := by
        rw [dropped_groups, hng]
        simp [hgrp]
      obtain ⟨ng₁, hng₁, hsub⟩ := ha₁.groups g _ hng₀
      have hlen : ng₁.pending.length < n := by
        have hle := hsub.length_le
        rw [length_erase_of_mem hm] at hle
        rw [hp, length_cons] at hn hle
        omega
      obtain ⟨s₂, ng₂, hr₂, hL₂, hng₂, hp₂, hB₂⟩ := ih hL₁ hng₁ hlen
      have hrun : (readEvent e >>= fun nev => dropEvent e true true >>= fun _ =>
          orphan ret nev.head >>= fun _ => dropPending ret g n).run s = some ((), s₂) := by
        rw [run_bind (run_readEvent he), ← bind_assoc, run_bind hr₁]
        exact hr₂
      refine ⟨s₂, ng₂, hrun, hL₂, hng₂, hp₂, fun hleave hB => ?_⟩
      rw [← hp] at hleave
      refine hB₂ (leavable_orphan hL hng he hm ha₁ hend₁ (fun k hk => ?_) hleave)
        (hB₁ (hleave e hm) hB)
      have hke := hsub.subset hk
      exact ⟨mem_of_mem_erase hke, fun heq => hnd.not_mem_erase (heq ▸ hke)⟩

theorem destroy_sound (hL : Linked none s) (hg : (s.groups g).isSome) (ret : ℕ → ℤ) :
    ∃ s', (anoubisNotifyDestroy ret g).run s = some ((), s') ∧ Linked none s' ∧
      (Accepted s (.destroy g ret) → Books s → Books s') := by
  obtain ⟨ng, hng⟩ := Option.isSome_iff_exists.mp hg
  let s₁ : Store := { s with groups := Function.update s.groups g (some { ng with regs := [] }) }
  have hL₁ : Linked none s₁ := linked_writeGroup hL hng rfl
  have hng₁ : s₁.groups g = some { ng with regs := [] } := update_self ..
  obtain ⟨s₂, ng₂, hr₂, hL₂, hng₂, hp₂, hB₂⟩ := dropPending_sound hL₁ hng₁ (Nat.lt_succ_self _) ret
  have hw : (writeGroup g (some { ng with regs := [] })).run s = some ((), s₁) := rfl
  rw [anoubisNotifyDestroy, run_bind (run_readGroup hng), run_bind hw, run_bind hr₂]
  refine ⟨_, rfl, linked_freeGroup hL₂ hng₂ hp₂, fun hacc hB => ?_⟩
  have hB₁ : Books s₁ := books_same hB le_rfl rfl rfl
  exact books_same (hB₂ (hacc ng hng) hB₁) le_rfl rfl rfl

/-! ### Whole runs -/

theorem call_sound (stat : U32) (hL : Linked none s) (hlive : Live s op) :
    ∃ s', step stat s op = some s' ∧ Linked none s' ∧ (Accepted s op → Books s → Books s') := by
  have hpure : ∀ {α : Type} {m : M α},
      (∃ r s', m.run s = some (r, s') ∧ Linked none s' ∧ (Accepted s op → Books s → Books s')) →
      ∃ s', ((m >>= fun _ => (pure () : M Unit)).run s).map Prod.snd = some s' ∧ Linked none s' ∧
        (Accepted s op → Books s → Books s') := by
    rintro α m ⟨r, s', hr, hL', hB'⟩
    exact ⟨s', by rw [run_bind hr]; rfl, hL', hB'⟩
  cases op with
  | create uid =>
    refine ⟨_, rfl, linked_createGroup hL uid, fun _ hB => books_same hB (Nat.le_succ _) rfl rfl⟩
  | register g uid ruleid subsystem =>
    obtain ⟨r, s', hr, hL', hB'⟩ := register_sound hL hlive uid ruleid subsystem
    exact hpure ⟨r, s', hr, hL', fun _ => hB'⟩
  | unregister g uid ruleid subsystem =>
    obtain ⟨r, s', hr, hL', hB'⟩ := unregister_sound hL hlive uid ruleid subsystem
    exact hpure ⟨r, s', hr, hL', fun _ => hB'⟩
  | createHead m =>
    obtain ⟨r, s', hr, hL', hB'⟩ := createHead_sound hL m
    exact hpure ⟨r, s', hr, hL', fun _ => hB'⟩
  | notify g h limit ret =>
    obtain ⟨r, s', hr, hL', hB'⟩ := notify_sound hL hlive.1 hlive.2 limit ret
    exact hpure ⟨r, s', hr, hL', fun _ => hB'⟩
  | answer g token verdict delegate ret =>
    exact hpure (answer_sound hL hlive ret token verdict delegate)
  | sendreply h verdict you uid ret =>
    obtain ⟨s', hr, hL', hB'⟩ := sendreply_sound hL hlive ret verdict you uid
    exact ⟨s', congrArg (Option.map Prod.snd) hr, hL', fun _ => hB'⟩
  | destroy g ret =>
    obtain ⟨s', hr, hL', hB'⟩ := destroy_sound hL hlive ret
    exact ⟨s', congrArg (Option.map Prod.snd) hr, hL', hB'⟩
  | destroyHead h =>
    obtain ⟨s', hr, hL', hB'⟩ := destroyHead_sound hL hlive
    exact ⟨s', congrArg (Option.map Prod.snd) hr, hL', fun _ => hB'⟩

/-- A call on a group or head that is gone fails. -/
theorem live_of_step (hstep : step stat s op = some s') : Live s op := by
  have hgroup : ∀ {g : ℕ} {α : Type} {f : Group → M α},
      (readGroup g >>= f).run s ≠ none → (s.groups g).isSome := by
    intro g α f hne
    by_contra hnone
    refine hne ?_
    rw [StateT.run_bind, show (readGroup g).run s = (s.groups g).map _ from rfl,
      Option.not_isSome_iff_eq_none.mp hnone]
    rfl
  have hhead : ∀ {s : Store} {h : ℕ} {α : Type} {f : Head → M α},
      (readHead h >>= f).run s ≠ none → (s.heads h).isSome := by
    intro s h α f hne
    by_contra hnone
    refine hne ?_
    rw [StateT.run_bind, show (readHead h).run s = (s.heads h).map _ from rfl,
      Option.not_isSome_iff_eq_none.mp hnone]
    rfl
  have hrun : (op.call stat).run s ≠ none := by
    intro hnone
    rw [step, hnone] at hstep
    cases hstep
  cases op with
  | create uid => trivial
  | createHead m => trivial
  | register g uid ruleid subsystem =>
    simp only [Op.call, anoubisNotifyRegister, bind_assoc] at hrun
    exact hgroup hrun
  | unregister g uid ruleid subsystem =>
    simp only [Op.call, anoubisNotifyUnregister, bind_assoc] at hrun
    exact hgroup hrun
  | notify g h limit ret =>
    simp only [Op.call, anoubisNotify, bind_assoc] at hrun
    have hg : (s.groups g).isSome := hgroup hrun
    obtain ⟨ng, hng⟩ := Option.isSome_iff_exists.mp hg
    rw [run_bind (run_readGroup hng)] at hrun
    exact ⟨hg, hhead hrun⟩
  | answer g token verdict delegate ret =>
    simp only [Op.call, anoubisNotifyAnswer, bind_assoc] at hrun
    exact hgroup hrun
  | sendreply h verdict you uid ret =>
    simp only [Op.call, noteCancel, bind_assoc] at hrun
    exact hhead hrun
  | destroy g ret =>
    simp only [Op.call, anoubisNotifyDestroy] at hrun
    exact hgroup hrun
  | destroyHead h =>
    have hnote : (noteDestroy h).run s = some ((), { s with log := s.log ++ [(h, .destroy)] }) := rfl
    rw [Op.call, run_bind hnote, anoubisNotifyDestroyHead] at hrun
    exact hhead (s := { s with log := s.log ++ [(h, .destroy)] }) hrun

/-- The verdicts of all escalations are collected exactly once. -/
structure Collected (s : Store) : Prop where
  /-- `eventcount` is the number of peers that can still answer. -/
  count : ∀ h hd, s.heads h = some hd → hd.eventcount = waiting s hd.events
  /-- The callback runs at most once. -/
  once : ∀ h, (hist s h).countP isFinish ≤ 1
  /-- It has run if nobody is left to answer. -/
  finished : ∀ h hd, s.heads h = some hd → (∃ g, Deed.deliver g ∈ hist s h) → hd.eventcount = 0 →
    ∃ v, Deed.finish v ∈ hist s h
  /-- A head that is gone was finished, or destroyed by its owner. -/
  ended : ∀ h, s.heads h = none → (∃ g, Deed.deliver g ∈ hist s h) →
    (∃ v, Deed.finish v ∈ hist s h) ∨ Deed.destroy ∈ hist s h
  /-- The verdict is the one the history up to the callback asks for. -/
  verdict : ∀ h pre v post, hist s h = pre ++ .finish v :: post → v = verdictOf pre
  /-- No event refers to a head that is gone. -/
  live : ∀ e ev h, s.events e = some ev → ev.head = some h → (s.heads h).isSome

/-- Where the callback stands in a history that is in order. -/
theorem kept_finish {o : Option Head} (hk : Kept o l) {pre : List Deed} {post : List Deed}
    (hl : l = pre ++ .finish v :: post) : o = none ∧ post = [] ∧ v = verdictOf pre := by
  have hmem : Deed.finish v ∈ l := by simp [hl]
  cases o with
  | some hd =>
    rw [Kept] at hk
    split at hk
    · cases (hk.undecided.not_finish _ hmem)
    · rw [hk] at hmem
      cases hmem
  | none =>
    rcases hk with rfl | ⟨pre', d, rfl, hno, hd⟩
    · cases hmem
    · -- the only callback is the last deed
      have hpost : post = [] := by
        cases post using List.reverseRecOn with
        | nil => rfl
        | append_singleton post d' =>
          rw [← cons_append, ← append_assoc] at hl
          have hpre : pre' = pre ++ Deed.finish v :: post := (append_inj' hl rfl).1
          cases hno (.finish v) (by simp [hpre])
      subst hpost
      obtain ⟨rfl, hd'⟩ := append_inj' hl rfl
      obtain rfl : d = .finish v := (List.cons.inj hd').1
      rcases hd with hd | hd
      · cases hd
      · exact ⟨rfl, rfl, Deed.finish.inj hd⟩

theorem collected_of_books (hL : Linked none s) (hB : Books s) : Collected s where
  count := fun h hd hh => hL.count h hd hh nofun
  once := by
    intro h
    obtain ⟨hk, -⟩ := books_iff.mp hB
    by_contra hgt
    have hpos : 0 < (hist s h).countP isFinish := by omega
    obtain ⟨d, hd, hf⟩ := countP_pos_iff.mp hpos
    cases d with
    | finish v =>
      obtain ⟨pre, post, hl⟩ := append_of_mem hd
      obtain ⟨-, rfl, -⟩ := kept_finish (hk h) hl
      rw [hl, countP_append] at hgt
      -- another one in front would have to be the last deed as well
      have hpre : 0 < pre.countP isFinish := by
        have hone : [Deed.finish v].countP isFinish = 1 := rfl
        omega
      obtain ⟨d', hd', hf'⟩ := countP_pos_iff.mp hpre
      cases d' with
      | finish w =>
        obtain ⟨pre', post', rfl⟩ := append_of_mem hd'
        rw [append_assoc, cons_append] at hl
        have hnil := (kept_finish (hk h) hl).2.1
        simp at hnil
      | _ => cases hf'
    | _ => cases hf
  finished := by
    intro h hd hh hdel h0
    by_cases hfin : hd.finish = true
    · exact absurd h0 ((hB.going h hd hh hfin).waits hdel)
    · obtain ⟨g, hg⟩ := hdel
      rw [hB.plain h hd hh (by simpa using hfin)] at hg
      cases hg
  ended := by
    rintro h hh ⟨g, hg⟩
    rcases hB.ended h hh with hnil | ⟨pre, d, hl, -, rfl | rfl⟩
    · rw [hnil] at hg
      cases hg
    · exact .inr (by simp [hl])
    · exact .inl ⟨_, by rw [hl]; exact mem_append_right _ (mem_singleton.mpr rfl)⟩
  verdict := fun h _ _ _ hl => (kept_finish ((books_iff.mp hB).1 h) hl).2.2
  live := by
    intro e ev h he hh
    obtain ⟨hd, hhd, -⟩ := hL.head e ev h he hh
    rw [hhd]
    rfl

theorem linked_init : Linked none Store.init :=
  ⟨nofun, nofun, nofun, nofun, nofun, nofun, nofun, nofun, nofun, nofun, nofun, nofun⟩

theorem books_init : Books Store.init :=
  ⟨nofun, nofun, fun _ _ => .inl rfl, fun _ _ => rfl⟩

theorem linked_runs {ops : List Op} (hrun : runs (step stat) Store.init ops = some s) : Linked none s := by
  refine runs_keep ?_ linked_init hrun
  intro s op s' hL hstep
  obtain ⟨s₁, hs₁, hL₁, -⟩ := call_sound stat hL (live_of_step hstep)
  rw [← Option.some.inj (hs₁.symm.trans hstep)]
  exact hL₁

/-- In every run in which no refused verdict is the last word on an escalation, the verdicts are
    collected exactly once; and whatever the verdicts are, no call on a live group or head follows a
    pointer to a freed object. -/
theorem verdicts_collected {stat : U32} {ops : List Op}
    (hrun : runs (step stat) Store.init ops = some s)
    (hacc : Along (step stat) Accepted Store.init ops) :
    Collected s ∧ ∀ op, Live s op → (step stat s op).isSome := by
  have hinv : Linked none s ∧ Books s := by
    refine runs_invariant (I := fun s => Linked none s ∧ Books s) ?_ ⟨linked_init, books_init⟩ hacc hrun
    rintro s op s' ⟨hL, hB⟩ hok hstep
    obtain ⟨s₁, hs₁, hL₁, hB₁⟩ := call_sound stat hL (live_of_step hstep)
    obtain rfl : s₁ = s' := Option.some.inj (hs₁.symm.trans hstep)
    exact ⟨hL₁, hB₁ hok hB⟩
  refine ⟨collected_of_books hinv.1 hinv.2, fun op hlive => ?_⟩
  obtain ⟨s₁, hs₁, -⟩ := call_sound stat hinv.1 hlive
  rw [hs₁]
  rfl

/-- One user with two sessions: the first one delegates, the second one decides. -/
def twoSessions : List Op :=
  [.create 1000, .register 0 1000 0 0, .create 1000, .register 1 1000 0 0,
    .createHead (.event .ask 1000 7 10 99), .notify 0 2 32 0, .notify 1 2 32 0,
    .answer 0 99 1 true (fun _ => 0), .answer 1 99 0 false (fun _ => 0)]

theorem verdicts_collected_two :
    (runs (step 33) Store.init twoSessions).map (fun s => hist s 2) =
        some [.deliver 0, .deliver 1, .answer 1 true, .answer 0 false, .finish 0] ∧
      ∃ s, runs (step 33) Store.init twoSessions = some s ∧ Collected s := by
  have hrun : (runs (step 33) Store.init twoSessions).map (fun s => hist s 2) =
      some [.deliver 0, .deliver 1, .answer 1 true, .answer 0 false, .finish 0] := by
    decide +kernel
  obtain ⟨s, hs, -⟩ := Option.map_eq_some_iff.mp hrun
  have hacc : Along (step 33) Accepted Store.init twoSessions := by
    refine along_of_mem (fun op hop s => ?_) Store.init
    simp only [twoSessions, List.mem_cons, List.not_mem_nil, or_false] at hop
    rcases hop with rfl | rfl | rfl | rfl | rfl | rfl | rfl | rfl | rfl
    case inr.inr.inr.inr.inr.inr.inr.inl => exact fun _ _ _ => by decide
    case inr.inr.inr.inr.inr.inr.inr.inr => exact fun _ _ _ => by decide
    all_goals trivial
  exact ⟨hrun, s, hs, (verdicts_collected hs hacc).1⟩

/-- A peer answers with a number that is negative as an `int`: nobody is left to answer, and the
    callback never runs. -/
theorem refused_verdict_lost : ∃ s, runs (step 33) Store.init
    [.create 1000, .register 0 1000 0 0, .createHead (.event .ask 1000 7 10 99), .notify 0 1 32 0,
      .answer 0 99 0x80000000 false (fun _ => 0)] = some s ∧ ¬ Collected s := by
  have hrun : (runs (step 33) Store.init
      [.create 1000, .register 0 1000 0 0, .createHead (.event .ask 1000 7 10 99), .notify 0 1 32 0,
        .answer 0 99 0x80000000 false (fun _ => 0)]).map
        (fun s => ((s.heads 1).map Head.eventcount, hist s 1)) =
      some (some 0, [.deliver 0, .answer 0x80000000 false]) := by
    decide +kernel
  obtain ⟨s, hs, hview⟩ := Option.map_eq_some_iff.mp hrun
  obtain ⟨hcount, hhist⟩ := Prod.mk.inj hview
  obtain ⟨hd, hhd, h0⟩ := Option.map_eq_some_iff.mp hcount
  refine ⟨s, hs, fun hc => ?_⟩
  obtain ⟨v, hv⟩ := hc.finished 1 hd hhd ⟨0, by simp [hhist]⟩ h0
  rw [hhist] at hv
  simp at hv

end Anoubis.Proto.Notify

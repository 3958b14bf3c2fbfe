import Anoubis.Proto.Notify

/-! Groups, heads and events stay linked.

    `Linked` is the invariant of the data structure: the two lists of an event and its two pointers
    agree, the flags say where it stands, and `eventcount` is the number of peers still asked. Within
    `anoubis_notify_sendreply` and `anoubis_notify_destroy_head` the count of the head that goes away is
    given up; that head is the parameter. No call fails on a linked store, that is, no call follows a
    pointer to a freed group, head or event. -/

namespace Anoubis.Proto.Notify

open Function

open Anoubis.Lib Option

/-- The events on the list that do not have FLAG_VERDICT. -/
def waiting (s : Store) (l : List ℕ) : ℕ :=
  l.countP (fun e => (s.events e).any (fun ev => !ev.verdict))

structure Linked (x : Option ℕ) (s : Store) : Prop where
  eventNext : ∀ e ev, s.events e = some ev → e < s.next
  headNext : ∀ h hd, s.heads h = some hd → h < s.next
  groupNext : ∀ g ng, s.groups g = some ng → g < s.next
  group : ∀ e ev, s.events e = some ev → ∃ ng, s.groups ev.grp = some ng ∧ e ∈ ng.pending
  pending : ∀ g ng, s.groups g = some ng →
    ng.pending.Nodup ∧ ∀ e ∈ ng.pending, ∃ ev, s.events e = some ev ∧ ev.grp = g
  head : ∀ e ev h, s.events e = some ev → ev.head = some h →
    ∃ hd, s.heads h = some hd ∧ e ∈ hd.events ∧ ev.token = hd.m.token
  listed : ∀ h hd, s.heads h = some hd →
    hd.events.Nodup ∧ ∀ e ∈ hd.events, ∃ ev, s.events e = some ev ∧ ev.head = some h
  flags : ∀ e ev, s.events e = some ev →
    ev.reply = ev.head.isNone ∧ (ev.verdict && ev.reply) = false
  tokens : ∀ e ev e' ev', s.events e = some ev → s.events e' = some ev' → ev.grp = ev'.grp →
    ev.token = ev'.token → e = e'
  count : ∀ h hd, s.heads h = some hd → x ≠ some h → hd.eventcount = waiting s hd.events
  asked : ∀ h hd, s.heads h = some hd →
    hd.finish = hd.m.isAsk ∧ (hd.m.isAsk = false → hd.events = [])
  unanswered : ∀ h hd, s.heads h = some hd → x ≠ some h → hd.finish = true → hd.reply = false

/-! ### `drop_event` in one step -/

def Event.mark (ev : Event) (v r : Bool) : Event :=
  { ev with verdict := ev.verdict || v, reply := ev.reply || r, head := if r then none else ev.head }

def Head.unlink (hd : Head) (e : ℕ) (ev : Event) (v r : Bool) : Head :=
  { hd with
    eventcount := if v && !ev.verdict then hd.eventcount - 1 else hd.eventcount
    events := if r then hd.events.erase e else hd.events }

/-- The flags are set, and the head of the event knows. -/
def mark (s : Store) (e : ℕ) (ev : Event) (v r : Bool) : Store :=
  { s with
    events := Function.update s.events e (some (ev.mark v r))
    heads := fun k => (s.heads k).map (fun hd => if ev.head = some k then hd.unlink e ev v r else hd) }

/-- The event is freed. -/
def release (s : Store) (e g : ℕ) : Store :=
  { s with
    events := Function.update s.events e none
    groups := fun k => (s.groups k).map (fun ng =>
      if g = k then { ng with pending := ng.pending.erase e } else ng) }

/-- The store behind `drop_event`. -/
def dropped (s : Store) (e : ℕ) (ev : Event) (v r : Bool) : Store :=
  if (ev.verdict || v) && (ev.reply || r) then release (mark s e ev v r) e ev.grp
  else mark s e ev v r

variable {x : Option ℕ} {s : Store} {e : ℕ} {ev : Event}
variable {α : Type} {f : ℕ → Option α} {a n : ℕ} {m : M Unit} {s' : Store} {hd' : Head} {ng' : Group}

/-- One entry of a table replaced. -/
theorem update_eq_map {y : α} (h : f a = some y) (F : α → α) :
    Function.update f a (some (F y)) = fun k => (f k).map (fun z => if a = k then F z else z) := by
  funext k
  by_cases hk : k = a
  · subst hk
    simp [h]
  · simp [update_of_ne hk, Ne.symm hk]

theorem run_readEvent (he : s.events e = some ev) : (readEvent e).run s = some (ev, s) := by
  change (s.events e).map _ = _
  rw [he]
  rfl

theorem run_deref (h : ℕ) (s : Store) : (deref (some h)).run s = some (h, s) := rfl

theorem run_readHead {h : ℕ} {hd : Head} (hh : s.heads h = some hd) : (readHead h).run s = some (hd, s) := by
  change (s.heads h).map _ = _
  rw [hh]
  rfl

variable {g k : ℕ} {ng : Group} {v r : Bool} {l : List ℕ} {verdict : U32}

theorem run_readGroup (hg : s.groups g = some ng) : (readGroup g).run s = some (ng, s) := by
  change (s.groups g).map _ = _
  rw [hg]
  rfl

theorem run_writeEvent_writeHead (s : Store) (e h : ℕ) (y : Option Event) (z : Option Head) :
    (writeEvent e y >>= fun _ => writeHead h z).run s = some ((), { s with
      events := Function.update s.events e y, heads := Function.update s.heads h z }) := rfl

theorem mark_none (he : s.events e = some ev) : mark s e ev false false = s := by
  have hmark : ev.mark false false = ev := by simp [Event.mark]
  have hheads : ∀ k, (s.heads k).map
      (fun hd => if ev.head = some k then hd.unlink e ev false false else hd) = s.heads k := by
    intro k
    simp [Head.unlink]
  simp only [mark, hmark, hheads, ← he, update_eq_self]

theorem dropVerdict_run (hL : Linked x s) (he : s.events e = some ev) :
    (dropVerdict e).run s = some ((), mark s e ev true false) := by
  rw [dropVerdict, run_bind (run_readEvent he)]
  by_cases hv : ev.verdict = true
  · have hmark : mark s e ev true false = mark s e ev false false := by
      simp [mark, Event.mark, Head.unlink, hv]
    rw [if_pos hv, hmark, mark_none he]
    rfl
  · rw [if_neg hv]
    obtain ⟨hr, -⟩ := hL.flags e ev he
    cases hh : ev.head with
    | none =>
      rw [if_pos (by rw [hr, hh]; rfl)]
      change some ((), { s with events := _ }) = _
      simp [mark, Event.mark, hh]
    | some h =>
      have hr' : ev.reply = false := by rw [hr, hh]; rfl
      obtain ⟨hd, hhd, -⟩ := hL.head e ev h he hh
      rw [if_neg (by simp [hr'])]
      rw [run_bind (run_deref h s), run_bind (run_readHead hhd)]
      rw [run_writeEvent_writeHead, update_eq_map hhd (fun hd => { hd with eventcount := hd.eventcount - 1 })]
      simp [mark, Event.mark, Head.unlink, hh, hv]

@[simp] theorem mark_events_self (v r : Bool) : (mark s e ev v r).events e = some (ev.mark v r) := by
  simp [mark]

theorem dropReply_run (hL : Linked x s) (he : s.events e = some ev) (v : Bool) :
    (dropReply e).run (mark s e ev v false) = some ((), mark s e ev v true) := by
  rw [dropReply, run_bind (run_readEvent (mark_events_self v false))]
  obtain ⟨hr, -⟩ := hL.flags e ev he
  cases hh : ev.head with
  | none =>
    have hr' : ev.reply = true := by rw [hr, hh]; rfl
    rw [if_pos (by simp [Event.mark, hr'])]
    have hmark : mark s e ev v true = mark s e ev v false := by
      simp [mark, Event.mark, hh, hr']
    rw [hmark]
    rfl
  | some h =>
    have hr' : ev.reply = false := by rw [hr, hh]; rfl
    obtain ⟨hd, hhd, -⟩ := hL.head e ev h he hh
    have hhd' : (mark s e ev v false).heads h = some (hd.unlink e ev v false) := by
      simp [mark, hhd, hh]
    rw [if_neg (by simp [Event.mark, hr'])]
    have hm : (ev.mark v false).head = some h := by simp [Event.mark, hh]
    rw [hm, run_bind (run_deref h _), run_bind (run_readHead hhd')]
    rw [run_writeEvent_writeHead, update_eq_map hhd' (fun hd => { hd with events := hd.events.erase e })]
    simp only [mark, Event.mark, Head.unlink, hh, map_map, update_idem]
    congr 3
    · funext k
      congr 1
      funext y
      by_cases hk : h = k
      · simp [hk]
      · simp [hk]
    · simp [hr']

theorem dropFree_run (hL : Linked x s) (he : s.events e = some ev) (v r : Bool) :
    (dropFree e).run (mark s e ev v r) = some ((), dropped s e ev v r) := by
  rw [dropFree, run_bind (run_readEvent (mark_events_self v r)), dropped]
  by_cases hf : ((ev.verdict || v) && (ev.reply || r)) = true
  · obtain ⟨ng, hng, -⟩ := hL.group e ev he
    have hf' : ((ev.mark v r).verdict && (ev.mark v r).reply) = true := hf
    have hng' : (mark s e ev v r).groups (ev.mark v r).grp = some ng := hng
    have hupd := update_eq_map hng' (fun ng => { ng with pending := ng.pending.erase e })
    rw [if_pos hf', if_pos hf, run_bind (run_readGroup hng')]
    exact congrArg (fun f => some ((), { release (mark s e ev v r) e ev.grp with groups := f })) hupd
  · have hf' : ¬ ((ev.mark v r).verdict && (ev.mark v r).reply) = true := hf
    rw [if_neg hf', if_neg hf]
    rfl

theorem onlyIf_run {c : Bool} {s : Store} (ht : c = true → m.run s = some ((), s')) (hf : c = false → s' = s) :
    (onlyIf c m).run s = some ((), s') := by
  cases c with
  | true => exact ht rfl
  | false =>
    rw [hf rfl]
    rfl

/-- `drop_event` on a linked store. -/
theorem dropEvent_run (hL : Linked x s) (he : s.events e = some ev) (v r : Bool) :
    (dropEvent e v r).run s = some ((), dropped s e ev v r) := by
  have hv : (onlyIf v (dropVerdict e)).run s = some ((), mark s e ev v false) := by
    refine onlyIf_run (fun h => ?_) (fun h => ?_)
    · rw [h]
      exact dropVerdict_run hL he
    · rw [h]
      exact mark_none he
  have hr : (onlyIf r (dropReply e)).run (mark s e ev v false) = some ((), mark s e ev v r) := by
    refine onlyIf_run (fun h => ?_) (fun h => ?_)
    · rw [h]
      exact dropReply_run hL he v
    · rw [h]
  rw [dropEvent, run_bind hv, run_bind hr]
  exact dropFree_run hL he v r

/-! ### What `drop_event` changes -/

theorem dropped_next (v r : Bool) : (dropped s e ev v r).next = s.next := by
  rw [dropped]
  split <;> rfl

theorem dropped_log (v r : Bool) : (dropped s e ev v r).log = s.log := by
  rw [dropped]
  split <;> rfl

theorem dropped_heads (v r : Bool) (k : ℕ) : (dropped s e ev v r).heads k =
    (s.heads k).map (fun hd => if ev.head = some k then hd.unlink e ev v r else hd) := by
  rw [dropped]
  split <;> rfl

theorem dropped_events_self (v r : Bool) : (dropped s e ev v r).events e =
    if (ev.verdict || v) && (ev.reply || r) then none else some (ev.mark v r) := by
  rw [dropped]
  split <;> simp [release, mark]

theorem dropped_events_of_ne (v r : Bool) (hk : k ≠ e) : (dropped s e ev v r).events k = s.events k := by
  rw [dropped]
  split <;> simp [release, mark, hk]

/-- Where the event stood, the group has lost it; all other groups are as before. -/
theorem dropped_groups (v r : Bool) (k : ℕ) : (dropped s e ev v r).groups k =
    (s.groups k).map (fun ng => if ((ev.verdict || v) && (ev.reply || r)) = true ∧ ev.grp = k
      then { ng with pending := ng.pending.erase e } else ng) := by
  rw [dropped]
  split
  next hf => simp [release, mark, hf]
  next hf => simp [mark, hf]

/-- An event that is still there afterwards. -/
theorem dropped_events_cases {ev' : Event} (h : (dropped s e ev v r).events k = some ev') :
    (k ≠ e ∧ s.events k = some ev') ∨
      (k = e ∧ ev' = ev.mark v r ∧ ((ev.verdict || v) && (ev.reply || r)) = false) := by
  by_cases hk : k = e
  · subst hk
    rw [dropped_events_self] at h
    split at h
    · cases h
    next hf => exact .inr ⟨rfl, (some.inj h).symm, by simpa using hf⟩
  · rw [dropped_events_of_ne v r hk] at h
    exact .inl ⟨hk, h⟩

theorem waiting_congr (h : ∀ k ∈ l, s'.events k = s.events k) : waiting s' l = waiting s l := by
  refine List.countP_congr fun k hk => ?_
  rw [h k hk]

theorem waiting_erase (hm : e ∈ l) (he : s.events e = some ev) :
    waiting s l = waiting s (l.erase e) + if ev.verdict then 0 else 1 := by
  rw [waiting, (List.perm_cons_erase hm).countP_eq, List.countP_cons, he, waiting]
  cases hv : ev.verdict <;> simp [hv]

/-- `eventcount` follows the flags, unless an event leaves the list that still was to be answered. -/
theorem count_unlink {hd : Head} (he : s.events e = some ev) (hr : ev.reply = false) (hnd : hd.events.Nodup)
    (hm : e ∈ hd.events) (hc : hd.eventcount = waiting s hd.events) (hv : r = true → (ev.verdict || v) = true) :
    (hd.unlink e ev v r).eventcount = waiting (dropped s e ev v r) (hd.unlink e ev v r).events := by
  have hothers : waiting (dropped s e ev v r) (hd.events.erase e) = waiting s (hd.events.erase e) :=
    waiting_congr fun k hk => dropped_events_of_ne v r fun hke => hnd.not_mem_erase (hke ▸ hk)
  have hbefore := waiting_erase hm he
  cases r with
  | true =>
    have hv' : ev.verdict = true ∨ v = true := by simpa using hv rfl
    simp only [Head.unlink, if_true, hothers, hc, hbefore]
    rcases hv' with hv' | hv'
    · simp [hv']
    · cases hev : ev.verdict <;> simp [hv']
  | false =>
    have hself : (dropped s e ev v false).events e = some (ev.mark v false) := by
      rw [dropped_events_self, hr]
      simp
    have hafter := waiting_erase hm hself
    simp only [Head.unlink, Bool.false_eq_true, if_false, hafter, hothers, hc, hbefore]
    cases hev : ev.verdict <;> cases v <;> simp [Event.mark, hev]

/-- A head that is there afterwards was there before. -/
theorem dropped_heads_cases (h : (dropped s e ev v r).heads k = some hd') :
    ∃ hd, s.heads k = some hd ∧ ((ev.head = some k ∧ hd' = hd.unlink e ev v r) ∨ (ev.head ≠ some k ∧ hd' = hd)) := by
  rw [dropped_heads] at h
  obtain ⟨hd, hhd, rfl⟩ := map_eq_some_iff.mp h
  refine ⟨hd, hhd, ?_⟩
  by_cases hk : ev.head = some k
  · exact .inl ⟨hk, if_pos hk⟩
  · exact .inr ⟨hk, if_neg hk⟩

theorem dropped_groups_cases (h : (dropped s e ev v r).groups k = some ng') :
    ∃ ng, s.groups k = some ng ∧ ((((ev.verdict || v) && (ev.reply || r)) = true ∧ ev.grp = k ∧
          ng' = { ng with pending := ng.pending.erase e }) ∨
        (¬ (((ev.verdict || v) && (ev.reply || r)) = true ∧ ev.grp = k) ∧ ng' = ng)) := by
  rw [dropped_groups] at h
  obtain ⟨ng, hng, rfl⟩ := map_eq_some_iff.mp h
  refine ⟨ng, hng, ?_⟩
  by_cases hk : ((ev.verdict || v) && (ev.reply || r)) = true ∧ ev.grp = k
  · exact .inl ⟨hk.1, hk.2, if_pos hk⟩
  · exact .inr ⟨hk, if_neg hk⟩

/-- The lists of the groups after `drop_event`. -/
theorem dropped_pending (hL : Linked x s) (he : s.events e = some ev) (v r : Bool)
    (h : (dropped s e ev v r).groups g = some ng') :
    ng'.pending.Nodup ∧ ∀ k ∈ ng'.pending, ∃ ev', (dropped s e ev v r).events k = some ev' ∧ ev'.grp = g := by
  obtain ⟨ng, hng, hcase⟩ := dropped_groups_cases h
  obtain ⟨hnd, hmem⟩ := hL.pending g ng hng
  rcases hcase with ⟨hf, hg, rfl⟩ | ⟨hf, rfl⟩
  · refine ⟨hnd.erase e, fun k hk => ?_⟩
    have hne : k ≠ e := fun hke => hnd.not_mem_erase (hke ▸ hk)
    rw [dropped_events_of_ne v r hne]
    exact hmem k (List.mem_of_mem_erase hk)
  · refine ⟨hnd, fun k hk => ?_⟩
    by_cases hke : k = e
    · subst hke
      obtain ⟨ev', hev', hg⟩ := hmem k hk
      obtain rfl : ev = ev' := some.inj (he.symm.trans hev')
      have hf' : ¬ ((ev.verdict || v) && (ev.reply || r)) = true := fun hf' => hf ⟨hf', hg⟩
      rw [dropped_events_self, if_neg hf']
      exact ⟨ev.mark v r, rfl, hg⟩
    · rw [dropped_events_of_ne v r hke]
      exact hmem k hk

/-- The lists of the heads after `drop_event`. -/
theorem dropped_listed (hL : Linked x s) (he : s.events e = some ev) (v r : Bool) {h : ℕ}
    (hh : (dropped s e ev v r).heads h = some hd') :
    hd'.events.Nodup ∧ ∀ k ∈ hd'.events, ∃ ev', (dropped s e ev v r).events k = some ev' ∧ ev'.head = some h := by
  obtain ⟨hd, hhd, hcase⟩ := dropped_heads_cases hh
  obtain ⟨hnd, hmem⟩ := hL.listed h hd hhd
  have hne : ∀ k ∈ hd.events, k ≠ e → ∃ ev', (dropped s e ev v r).events k = some ev' ∧
      ev'.head = some h := by
    intro k hk hke
    rw [dropped_events_of_ne v r hke]
    exact hmem k hk
  rcases hcase with ⟨heh, rfl⟩ | ⟨hneh, rfl⟩
  · cases r with
    | true =>
      refine ⟨hnd.erase e, fun k hk => hne k (List.mem_of_mem_erase hk) fun hke => ?_⟩
      exact hnd.not_mem_erase (hke ▸ hk)
    | false =>
      refine ⟨hnd, fun k hk => ?_⟩
      by_cases hke : k = e
      · subst hke
        have hr : ev.reply = false := by rw [(hL.flags k ev he).1, heh]; rfl
        rw [dropped_events_self, hr, Bool.or_false, Bool.and_false, if_neg Bool.false_ne_true]
        exact ⟨ev.mark v false, rfl, by simp [Event.mark, heh]⟩
      · exact hne k hk hke
  · refine ⟨hnd, fun k hk => hne k hk fun hke => ?_⟩
    obtain ⟨ev', hev', hk'⟩ := hmem k hk
    obtain rfl : ev = ev' := some.inj (he.symm.trans (hke ▸ hev'))
    exact hneh hk'

/-- `drop_event` keeps the links. An event that still waits may only leave the list of the head that
    is given up. -/
theorem linked_dropped (hL : Linked x s) (he : s.events e = some ev)
    (hx : r = true → (ev.verdict || v) = false → ev.head = x ∨ ev.head = none) :
    Linked x (dropped s e ev v r) where
  eventNext := by
    intro k ev' hk
    rw [dropped_next]
    rcases dropped_events_cases hk with ⟨-, hk⟩ | ⟨rfl, -, -⟩
    · exact hL.eventNext k ev' hk
    · exact hL.eventNext k ev he
  headNext := by
    intro k hd' hk
    obtain ⟨hd, hhd, -⟩ := dropped_heads_cases hk
    rw [dropped_next]
    exact hL.headNext k hd hhd
  groupNext := by
    intro k ng' hk
    obtain ⟨ng, hng, -⟩ := dropped_groups_cases hk
    rw [dropped_next]
    exact hL.groupNext k ng hng
  group := by
    intro k ev' hk
    rcases dropped_events_cases hk with ⟨hne, hk⟩ | ⟨rfl, rfl, hf⟩
    · obtain ⟨ng, hng, hm⟩ := hL.group k ev' hk
      rw [dropped_groups, hng, map_some]
      refine ⟨_, rfl, ?_⟩
      split
      · exact (List.mem_erase_of_ne hne).mpr hm
      · exact hm
    · obtain ⟨ng, hng, hm⟩ := hL.group k ev he
      refine ⟨ng, ?_, hm⟩
      rw [dropped_groups, hf]
      simpa [Event.mark] using hng
  pending := fun g ng' h => dropped_pending hL he v r h
  head := by
    intro k ev' h hk hh
    have hkeep : ∀ {k : ℕ} {hd : Head}, k ≠ e ∨ r = false → s.heads h = some hd → k ∈ hd.events →
        ev'.token = hd.m.token →
        ∃ hd', (dropped s e ev v r).heads h = some hd' ∧ k ∈ hd'.events ∧ ev'.token = hd'.m.token := by
      intro k hd hor hhd hm ht
      rw [dropped_heads, hhd, map_some]
      refine ⟨_, rfl, ?_, ?_⟩
      · split
        · rw [Head.unlink]
          split
          next hr =>
            rcases hor with hne | hr'
            · exact (List.mem_erase_of_ne hne).mpr hm
            · rw [hr'] at hr
              cases hr
          next => exact hm
        · exact hm
      · split
        · exact ht
        · exact ht
    rcases dropped_events_cases hk with ⟨hne, hk⟩ | ⟨rfl, rfl, -⟩
    · obtain ⟨hd, hhd, hm, ht⟩ := hL.head k ev' h hk hh
      exact hkeep (.inl hne) hhd hm ht
    · cases r with
      | true => simp [Event.mark] at hh
      | false =>
        have hh' : ev.head = some h := by simpa [Event.mark] using hh
        obtain ⟨hd, hhd, hm, ht⟩ := hL.head k ev h he hh'
        exact hkeep (.inr rfl) hhd hm ht
  listed := fun h hd' hh => dropped_listed hL he v r hh
  flags := by
    intro k ev' hk
    rcases dropped_events_cases hk with ⟨-, hk⟩ | ⟨rfl, rfl, hf⟩
    · exact hL.flags k ev' hk
    · refine ⟨?_, hf⟩
      have hr := (hL.flags k ev he).1
      cases r with
      | true => simp [Event.mark]
      | false => simpa [Event.mark] using hr
  tokens := by
    intro k ev₁ k' ev₂ hk hk'
    rcases dropped_events_cases hk with ⟨-, h₁⟩ | ⟨rfl, rfl, -⟩ <;>
      rcases dropped_events_cases hk' with ⟨-, h₂⟩ | ⟨rfl, rfl, -⟩
    · exact hL.tokens k ev₁ k' ev₂ h₁ h₂
    · exact hL.tokens k ev₁ k' ev h₁ he
    · exact hL.tokens k ev k' ev₂ he h₂
    · exact fun _ _ => rfl
  count := by
    intro h hd' hh hxh
    obtain ⟨hd, hhd, hcase⟩ := dropped_heads_cases hh
    obtain ⟨hnd, hmem⟩ := hL.listed h hd hhd
    rcases hcase with ⟨heh, rfl⟩ | ⟨hneh, rfl⟩
    · obtain ⟨hd₂, hhd₂, hm, -⟩ := hL.head e ev h he heh
      obtain rfl : hd = hd₂ := some.inj (hhd.symm.trans hhd₂)
      have hr : ev.reply = false := by rw [(hL.flags e ev he).1, heh]; rfl
      refine count_unlink he hr hnd hm (hL.count h hd hhd hxh) fun hr' => ?_
      by_contra hv
      rcases hx hr' (by simpa using hv) with hx' | hx'
      · exact hxh (hx' ▸ heh)
      · rw [heh] at hx'
        cases hx'
    · rw [hL.count h hd' hhd hxh]
      refine congrArg Nat.cast (waiting_congr fun k hk => dropped_events_of_ne v r fun hke => ?_).symm
      obtain ⟨ev', hev', hk'⟩ := hmem k hk
      obtain rfl : ev = ev' := some.inj (he.symm.trans (hke ▸ hev'))
      exact hneh hk'
  asked := by
    intro h hd' hh
    obtain ⟨hd, hhd, hcase⟩ := dropped_heads_cases hh
    obtain ⟨hfin, hnil⟩ := hL.asked h hd hhd
    rcases hcase with ⟨-, rfl⟩ | ⟨-, rfl⟩
    · refine ⟨hfin, fun hask => ?_⟩
      rw [Head.unlink, hnil hask]
      simp
    · exact ⟨hfin, hnil⟩
  unanswered := by
    intro h hd' hh hxh
    obtain ⟨hd, hhd, hcase⟩ := dropped_heads_cases hh
    rcases hcase with ⟨-, rfl⟩ | ⟨-, rfl⟩
    · exact hL.unanswered h hd hhd hxh
    · exact hL.unanswered h hd' hhd hxh

/-! ### Around a head -/

/-- The head `p` and its events apart, nothing has changed. -/
structure Around (p : Option ℕ) (s s' : Store) : Prop where
  heads : ∀ k, p ≠ some k → s'.heads k = s.heads k
  groups : ∀ g ng, s.groups g = some ng →
    ∃ ng', s'.groups g = some ng' ∧ ng'.pending.Sublist ng.pending
  events : ∀ e ev', s'.events e = some ev' → ∃ ev, s.events e = some ev ∧
    (ev' = ev ∨ (ev.head = p ∧ (ev'.head = p ∨ ev'.head = none)))
  next : s'.next = s.next

theorem Around.refl (p : Option ℕ) (s : Store) : Around p s s where
  heads := fun _ _ => rfl
  groups := fun _ ng h => ⟨ng, h, .refl _⟩
  events := fun _ ev h => ⟨ev, h, .inl rfl⟩
  next := rfl

theorem Around.trans {p : Option ℕ} {s s₁ s₂ : Store} (h : Around p s s₁) (h' : Around p s₁ s₂) :
    Around p s s₂ where
  heads := fun k hk => (h'.heads k hk).trans (h.heads k hk)
  groups := by
    intro g ng hg
    obtain ⟨ng₁, hg₁, hs₁⟩ := h.groups g ng hg
    obtain ⟨ng₂, hg₂, hs₂⟩ := h'.groups g ng₁ hg₁
    exact ⟨ng₂, hg₂, hs₂.trans hs₁⟩
  events := by
    intro e ev₂ he₂
    obtain ⟨ev₁, he₁, h₁⟩ := h'.events e ev₂ he₂
    obtain ⟨ev, he, h₀⟩ := h.events e ev₁ he₁
    refine ⟨ev, he, ?_⟩
    rcases h₁ with rfl | ⟨hp, hor⟩
    · exact h₀
    · rcases h₀ with rfl | ⟨hp₀, -⟩
      · exact .inr ⟨hp, hor⟩
      · exact .inr ⟨hp₀, hor⟩
  next := h'.next.trans h.next

theorem around_dropped (s : Store) (he : s.events e = some ev) (v r : Bool) :
    Around ev.head s (dropped s e ev v r) where
  heads := by
    intro k hk
    rw [dropped_heads]
    simp [hk]
  groups := by
    intro g ng hg
    rw [dropped_groups, hg, map_some]
    refine ⟨_, rfl, ?_⟩
    split
    · exact List.erase_sublist
    · exact .refl _
  events := by
    intro k ev' hk
    rcases dropped_events_cases hk with ⟨-, hk⟩ | ⟨rfl, rfl, -⟩
    · exact ⟨ev', hk, .inl rfl⟩
    · refine ⟨ev, he, .inr ⟨rfl, ?_⟩⟩
      cases r with
      | true => exact .inr rfl
      | false => exact .inl rfl
  next := dropped_next v r

/-- What of a head the loops leave alone. -/
def Head.bare (hd : Head) : Head := { hd with events := [], eventcount := 0 }

variable {h : ℕ} {hd : Head}

/-- A step of a loop over the head that is given up: `l` is what the head still lists. -/
def OnHead (h : ℕ) (s : Store) (hd : Head) (l : List ℕ) (m : M Unit) : Prop :=
  ∃ s' hd', m.run s = some ((), s') ∧ Linked (some h) s' ∧ Around (some h) s s' ∧ s'.log = s.log ∧
    s'.heads h = some hd' ∧ hd'.bare = hd.bare ∧ hd'.events = l

/-- Two steps. -/
theorem OnHead.bind {l' : List ℕ} {k : M Unit} (hm : OnHead h s hd l m)
    (hk : ∀ s' hd', Linked (some h) s' → s'.heads h = some hd' → hd'.events = l → OnHead h s' hd' l' k) :
    OnHead h s hd l' (m >>= fun _ => k) := by
  obtain ⟨s₁, hd₁, hr₁, hL₁, ha₁, hl₁, hh₁, hb₁, he₁⟩ := hm
  obtain ⟨s₂, hd₂, hr₂, hL₂, ha₂, hl₂, hh₂, hb₂, he₂⟩ := hk s₁ hd₁ hL₁ hh₁ he₁
  exact ⟨s₂, hd₂, (run_bind hr₁ _).trans hr₂, hL₂, ha₁.trans ha₂, hl₂.trans hl₁, hh₂, hb₂.trans hb₁, he₂⟩

/-- The end of a loop. -/
theorem OnHead.pure (hL : Linked (some h) s) (hh : s.heads h = some hd) (hev : hd.events = []) :
    OnHead h s hd [] (Pure.pure ()) :=
  ⟨s, hd, rfl, hL, Around.refl _ s, rfl, hh, rfl, hev⟩

/-- `drop_event` for an event of a head that is given up. -/
theorem dropEvent_listed (hL : Linked (some h) s) (hh : s.heads h = some hd) (hm : e ∈ hd.events)
    (v r : Bool) : OnHead h s hd (if r then hd.events.erase e else hd.events) (dropEvent e v r) := by
  obtain ⟨ev, he, heh⟩ := (hL.listed h hd hh).2 e hm
  refine ⟨dropped s e ev v r, hd.unlink e ev v r, dropEvent_run hL he v r, ?_, ?_, dropped_log v r, ?_, rfl, rfl⟩
  · exact linked_dropped hL he fun _ _ => .inl heh
  · rw [← heh]
    exact around_dropped s he v r
  · rw [dropped_heads, hh, heh]
    simp

/-- One event less. -/
theorem dropEvent_first (hL : Linked (some h) s) (hh : s.heads h = some hd) (hev : hd.events = e :: l) :
    OnHead h s hd l (dropEvent e false true) := by
  have hl : l = if true then hd.events.erase e else hd.events := by
    rw [if_pos rfl, hev, List.erase_cons_head]
  rw [hl]
  exact dropEvent_listed hL hh (hev ▸ List.mem_cons_self) false true

/-- The loop of `anoubis_notify_destroy_head`. -/
theorem dropEvents_run (hL : Linked (some h) s) (hh : s.heads h = some hd) (hn : hd.events.length < n) :
    OnHead h s hd [] (dropEvents h n) := by
  induction n generalizing s hd with
  | zero => exact absurd hn (Nat.not_lt_zero _)
  | succ n ih =>
    rw [dropEvents, OnHead, run_bind (run_readHead hh)]
    cases hev : hd.events with
    | nil => exact OnHead.pure hL hh hev
    | cons e l =>
      refine (dropEvent_first hL hh hev).bind fun s₁ hd₁ hL₁ hh₁ he₁ => ih hL₁ hh₁ ?_
      rw [hev, List.length_cons] at hn
      rw [he₁]
      omega

theorem linked_sent (hL : Linked x s) (l : List Sent) : Linked x { s with sent := l } :=
  ⟨hL.eventNext, hL.headNext, hL.groupNext, hL.group, hL.pending, hL.head, hL.listed, hL.flags,
    hL.tokens, hL.count, hL.asked, hL.unanswered⟩

theorem linked_log (hL : Linked x s) (l : List (ℕ × Deed)) : Linked x { s with log := l } :=
  ⟨hL.eventNext, hL.headNext, hL.groupNext, hL.group, hL.pending, hL.head, hL.listed, hL.flags,
    hL.tokens, hL.count, hL.asked, hL.unanswered⟩

theorem sendResult_run (hL : Linked (some h) s) (hh : s.heads h = some hd) (hm : e ∈ hd.events)
    (ret : ℕ → ℤ) (verdict : U32) (you : Option ℕ) (uid : U32) :
    OnHead h s hd hd.events (sendResult ret verdict you uid e) := by
  obtain ⟨ev, he, heh⟩ := (hL.listed h hd hh).2 e hm
  obtain ⟨ng, hng, -⟩ := hL.group e ev he
  rw [OnHead, sendResult, run_bind (run_readEvent he), run_bind (run_readGroup hng)]
  by_cases hret : ret ev.grp < 0
  · rw [if_pos hret]
    exact dropEvent_listed hL hh hm true false
  · rw [if_neg hret]
    refine ⟨_, hd, rfl, linked_sent hL _, ?_, rfl, hh, rfl, rfl⟩
    exact ⟨fun _ _ => rfl, (Around.refl (some h) s).groups, (Around.refl (some h) s).events, rfl⟩

/-- The loop of `anoubis_notify_sendreply`. -/
theorem sendResults_run (hL : Linked (some h) s) (hh : s.heads h = some hd) (hn : hd.events.length < n)
    (ret : ℕ → ℤ) (verdict : U32) (you : Option ℕ) (uid : U32) :
    OnHead h s hd [] (sendResults ret verdict you uid h n) := by
  induction n generalizing s hd with
  | zero => exact absurd hn (Nat.not_lt_zero _)
  | succ n ih =>
    rw [sendResults, OnHead, run_bind (run_readHead hh)]
    cases hev : hd.events with
    | nil => exact OnHead.pure hL hh hev
    | cons e l =>
      have hm : e ∈ hd.events := hev ▸ List.mem_cons_self
      refine (sendResult_run hL hh hm ret verdict you uid).bind fun s₀ hd₀ hL₀ hh₀ he₀ => ?_
      refine (dropEvent_first hL₀ hh₀ (he₀.trans hev)).bind fun s₁ hd₁ hL₁ hh₁ he₁ => ih hL₁ hh₁ ?_
      rw [hev, List.length_cons] at hn
      rw [he₁]
      omega

/-! ### The end of a head -/

/-- A table entry that is written, seen from the new table. -/
theorem update_some_cases {o : Option α} {y : α} (h : Function.update f a o k = some y) :
    (k = a ∧ o = some y) ∨ (k ≠ a ∧ f k = some y) := by
  by_cases hk : k = a
  · subst hk
    rw [update_self] at h
    exact .inl ⟨rfl, h⟩
  · rw [update_of_ne hk] at h
    exact .inr ⟨hk, h⟩

/-- Other fields of a head are written. -/
theorem linked_writeHead (hL : Linked x s) (hh : s.heads h = some hd) (he : hd'.events = hd.events)
    (hc : hd'.eventcount = hd.eventcount) (hm : hd'.m = hd.m) (hf : hd'.finish = hd.finish)
    (hr : x ≠ some h → hd'.finish = true → hd'.reply = false) :
    Linked x { s with heads := Function.update s.heads h (some hd') } := by
  have hcases : ∀ {k : ℕ} {hd₁ : Head}, Function.update s.heads h (some hd') k = some hd₁ →
      ∃ hd₀, s.heads k = some hd₀ ∧ hd₁.events = hd₀.events ∧ hd₁.eventcount = hd₀.eventcount ∧
        hd₁.m = hd₀.m ∧ hd₁.finish = hd₀.finish := by
    intro k hd₁ hk
    rcases update_some_cases hk with ⟨rfl, ho⟩ | ⟨-, hk⟩
    · cases ho
      exact ⟨hd, hh, he, hc, hm, hf⟩
    · exact ⟨hd₁, hk, rfl, rfl, rfl, rfl⟩
  refine ⟨hL.eventNext, ?_, hL.groupNext, hL.group, hL.pending, ?_, ?_, hL.flags, hL.tokens, ?_, ?_, ?_⟩
  · intro k hd₁ hk
    obtain ⟨hd₀, hk₀, -⟩ := hcases hk
    exact hL.headNext k hd₀ hk₀
  · intro k ev k' hev hhead
    obtain ⟨hd₀, hk₀, hmem, ht⟩ := hL.head k ev k' hev hhead
    by_cases hkh : k' = h
    · subst hkh
      obtain rfl : hd = hd₀ := some.inj (hh.symm.trans hk₀)
      exact ⟨hd', by simp, he ▸ hmem, by rw [hm]; exact ht⟩
    · exact ⟨hd₀, by simpa [update_of_ne hkh] using hk₀, hmem, ht⟩
  · intro k hd₁ hk
    obtain ⟨hd₀, hk₀, he₀, -⟩ := hcases hk
    rw [he₀]
    exact hL.listed k hd₀ hk₀
  · intro k hd₁ hk hx
    obtain ⟨hd₀, hk₀, he₀, hc₀, -⟩ := hcases hk
    rw [hc₀, he₀]
    exact hL.count k hd₀ hk₀ hx
  · intro k hd₁ hk
    obtain ⟨hd₀, hk₀, he₀, -, hm₀, hf₀⟩ := hcases hk
    rw [hf₀, hm₀, he₀]
    exact hL.asked k hd₀ hk₀
  · intro k hd₁ hk hx
    rcases update_some_cases hk with ⟨rfl, ho⟩ | ⟨-, hk⟩
    · cases ho
      exact hr hx
    · exact hL.unanswered k hd₁ hk hx

/-- A head without events is freed. -/
theorem linked_freeHead (hL : Linked (some h) s) (hh : s.heads h = some hd) (he : hd.events = []) :
    Linked none { s with heads := Function.update s.heads h none } := by
  have hcases : ∀ {k : ℕ} {hd₁ : Head}, Function.update s.heads h none k = some hd₁ →
      s.heads k = some hd₁ ∧ k ≠ h := by
    intro k hd₁ hk
    rcases update_some_cases hk with ⟨-, ho⟩ | ⟨hkh, hk⟩
    · cases ho
    · exact ⟨hk, hkh⟩
  refine ⟨hL.eventNext, fun k hd₁ hk => hL.headNext k hd₁ (hcases hk).1, hL.groupNext, hL.group,
    hL.pending, ?_, fun k hd₁ hk => hL.listed k hd₁ (hcases hk).1, hL.flags, hL.tokens, ?_,
    fun k hd₁ hk => hL.asked k hd₁ (hcases hk).1, ?_⟩
  · intro k ev k' hev hhead
    obtain ⟨hd₀, hk₀, hmem, ht⟩ := hL.head k ev k' hev hhead
    by_cases hkh : k' = h
    · subst hkh
      obtain rfl : hd = hd₀ := some.inj (hh.symm.trans hk₀)
      rw [he] at hmem
      cases hmem
    · exact ⟨hd₀, by simpa [update_of_ne hkh] using hk₀, hmem, ht⟩
  · intro _ hd₁ hk _
    exact hL.count _ hd₁ (hcases hk).1 fun hx => (hcases hk).2 (some.inj hx).symm
  · intro _ hd₁ hk _
    exact hL.unanswered _ hd₁ (hcases hk).1 fun hx => (hcases hk).2 (some.inj hx).symm

theorem Linked.give_up (hL : Linked none s) (h : ℕ) : Linked (some h) s :=
  ⟨hL.eventNext, hL.headNext, hL.groupNext, hL.group, hL.pending, hL.head, hL.listed, hL.flags,
    hL.tokens, fun k hd hk _ => hL.count k hd hk nofun, hL.asked,
    fun k hd hk _ => hL.unanswered k hd hk nofun⟩

theorem around_updateHead (s : Store) (o : Option Head) :
    Around (some h) s { s with heads := Function.update s.heads h o } where
  heads := fun _ hk => update_of_ne (fun hkh => hk (congrArg some hkh.symm)) _ _
  groups := (Around.refl (some h) s).groups
  events := (Around.refl (some h) s).events
  next := rfl

/-- `anoubis_notify_destroy_head`. -/
theorem destroyHead_run (hL : Linked (some h) s) (hh : s.heads h = some hd) :
    ∃ s', (anoubisNotifyDestroyHead h).run s = some ((), s') ∧ Linked none s' ∧
      Around (some h) s s' ∧ s'.log = s.log ∧ s'.heads h = none := by
  obtain ⟨s₁, hd₁, hr₁, hL₁, ha₁, hl₁, hh₁, -, he₁⟩ := dropEvents_run hL hh (Nat.lt_succ_self _)
  refine ⟨_, ?_, linked_freeHead hL₁ hh₁ he₁, ha₁.trans (around_updateHead s₁ none), hl₁, by simp⟩
  rw [anoubisNotifyDestroyHead, run_bind (run_readHead hh), run_bind hr₁]
  rfl

/-- `anoubis_notify_sendreply` on an escalation that is still open: everybody is told, and the callback
    runs. -/
theorem sendreply_finish (hL : Linked none s) (hh : s.heads h = some hd) (hf : hd.finish = true)
    (hr : hd.reply = false) (hv : ¬ verdict.toInt < 0) (ret : ℕ → ℤ) (you : Option ℕ) (uid : U32) :
    ∃ s', (anoubisNotifySendreply ret h verdict you uid).run s = some (0, s') ∧
      Linked none s' ∧ Around (some h) s s' ∧ s'.log = s.log ++ [(h, .finish verdict)] ∧ s'.heads h = none := by
  let hd₀ : Head := { hd with reply := true, verdict := verdict, uid := uid }
  let s₀ : Store := { s with heads := Function.update s.heads h (some hd₀) }
  have hL₀ : Linked (some h) s₀ := linked_writeHead (hL.give_up h) hh rfl rfl rfl rfl (absurd rfl)
  have hh₀ : s₀.heads h = some hd₀ := update_self ..
  have hn : hd.events.length < hd.events.length + 1 := Nat.lt_succ_self _
  obtain ⟨s₁, hd₁, hr₁, hL₁, ha₁, hl₁, hh₁, hb₁, -⟩ :=
    sendResults_run hL₀ hh₀ hn ret verdict you uid
  have hf₁ : hd₁.finish = true := (congrArg Head.finish hb₁).trans hf
  have hv₁ : hd₁.verdict = verdict := congrArg Head.verdict hb₁
  have hL₂ : Linked (some h) { s₁ with log := s₁.log ++ [(h, Deed.finish verdict)] } := linked_log hL₁ _
  obtain ⟨s₃, hr₃, hL₃, ha₃, hl₃, hh₃⟩ := destroyHead_run hL₂ hh₁
  refine ⟨s₃, ?_, hL₃, ?_, ?_, hh₃⟩
  · have hfin : (runFinish h).run s₁ = some ((), s₃) := by
      rw [runFinish, run_bind (run_readHead hh₁), if_pos hf₁, hv₁]
      exact hr₃
    have hr' : ¬ hd.reply = true := by simp [hr]
    have hw : (writeHead h (some hd₀)).run s = some ((), s₀) := rfl
    rw [anoubisNotifySendreply, if_neg hv, run_bind (run_readHead hh), if_neg hr']
    rw [run_bind hw, run_bind hr₁, run_bind hfin]
    rfl
  · have hnote : Around (some h) s₁ { s₁ with log := s₁.log ++ [(h, Deed.finish verdict)] } :=
      ⟨fun _ _ => rfl, (Around.refl (some h) s₁).groups, (Around.refl (some h) s₁).events, rfl⟩
    exact (((around_updateHead s _).trans ha₁).trans hnote).trans ha₃
  · rw [hl₃, hl₁]

/-- A refused verdict. -/
theorem sendreply_refused (s : Store) (hv : verdict.toInt < 0) (ret : ℕ → ℤ) (you : Option ℕ) (uid : U32) :
    (anoubisNotifySendreply ret h verdict you uid).run s = some (-(einval : ℤ), s) := by
  rw [anoubisNotifySendreply, if_pos hv]
  rfl

/-- A message without callback has no events either. -/
theorem sendreply_plain (hL : Linked none s) (hh : s.heads h = some hd) (hf : hd.finish = false)
    (hv : ¬ verdict.toInt < 0) (ret : ℕ → ℤ) (you : Option ℕ) (uid : U32) :
    ∃ s' hd', (anoubisNotifySendreply ret h verdict you uid).run s = some (0, s') ∧ Linked none s' ∧
      Around (some h) s s' ∧ s'.log = s.log ∧ s'.heads h = some hd' ∧ hd'.finish = false := by
  rw [anoubisNotifySendreply, if_neg hv, run_bind (run_readHead hh)]
  by_cases hr : hd.reply = true
  · rw [if_pos hr]
    exact ⟨s, hd, rfl, hL, Around.refl _ s, rfl, hh, hf⟩
  · rw [if_neg hr]
    obtain ⟨hfin, hnil⟩ := hL.asked h hd hh
    have hev : hd.events = [] := hnil (hfin ▸ hf)
    let hd' : Head := { hd with reply := true, verdict := verdict, uid := uid }
    let s' : Store := { s with heads := Function.update s.heads h (some hd') }
    have hh' : s'.heads h = some hd' := update_self ..
    have hloop : (sendResults ret verdict you uid h (hd.events.length + 1)).run s' = some ((), s') := by
      have hev' : hd'.events = [] := hev
      rw [sendResults, run_bind (run_readHead hh'), hev']
      rfl
    have hfin' : (runFinish h).run s' = some ((), s') := by
      rw [runFinish, run_bind (run_readHead hh'), if_neg (by simp [hd', hf])]
      rfl
    have hw : (writeHead h (some hd')).run s = some ((), s') := rfl
    have hno : none ≠ some h → hd'.finish = true → hd'.reply = false := by
      intro _ hfin''
      rw [show hd'.finish = hd.finish from rfl, hf] at hfin''
      cases hfin''
    refine ⟨s', hd', ?_, linked_writeHead hL hh rfl rfl rfl rfl hno, around_updateHead s _, rfl, hh', hf⟩
    rw [run_bind hw, run_bind hloop, run_bind hfin']
    rfl

/-! ### Groups and deliveries -/

/-- The registrations of a group are written. -/
theorem linked_writeGroup (hL : Linked x s) (hg : s.groups g = some ng) (hp : ng'.pending = ng.pending) :
    Linked x { s with groups := Function.update s.groups g (some ng') } := by
  refine ⟨hL.eventNext, hL.headNext, ?_, ?_, ?_, hL.head, hL.listed, hL.flags, hL.tokens, hL.count,
    hL.asked, hL.unanswered⟩
  · intro k ng₁ hk
    rcases update_some_cases hk with ⟨rfl, -⟩ | ⟨-, hk⟩
    · exact hL.groupNext k ng hg
    · exact hL.groupNext k ng₁ hk
  · intro e ev he
    obtain ⟨ng₀, hng₀, hm⟩ := hL.group e ev he
    by_cases hk : ev.grp = g
    · subst hk
      obtain rfl : ng = ng₀ := some.inj (hg.symm.trans hng₀)
      exact ⟨ng', update_self .., hp ▸ hm⟩
    · exact ⟨ng₀, (update_of_ne hk ..).trans hng₀, hm⟩
  · intro k ng₁ hk
    rcases update_some_cases hk with ⟨rfl, ho⟩ | ⟨-, hk⟩
    · cases ho
      rw [hp]
      exact hL.pending k ng hg
    · exact hL.pending k ng₁ hk

/-- A new group. -/
theorem linked_createGroup (hL : Linked x s) (uid : U32) :
    Linked x { s with
      next := s.next + 1, groups := Function.update s.groups s.next (some ⟨uid, [], []⟩) } := by
  refine ⟨fun e ev he => Nat.lt_succ_of_lt (hL.eventNext e ev he),
    fun h hd hh => Nat.lt_succ_of_lt (hL.headNext h hd hh), ?_, ?_, ?_, hL.head, hL.listed, hL.flags,
    hL.tokens, hL.count, hL.asked, hL.unanswered⟩
  · intro k ng hk
    rcases update_some_cases hk with ⟨rfl, -⟩ | ⟨-, hk⟩
    · exact Nat.lt_succ_self _
    · exact Nat.lt_succ_of_lt (hL.groupNext k ng hk)
  · intro e ev he
    obtain ⟨ng, hng, hm⟩ := hL.group e ev he
    have hne : ev.grp ≠ s.next := (hL.groupNext ev.grp ng hng).ne
    exact ⟨ng, (update_of_ne hne ..).trans hng, hm⟩
  · intro k ng hk
    rcases update_some_cases hk with ⟨-, ho⟩ | ⟨-, hk⟩
    · cases ho
      exact ⟨List.nodup_nil, (fun e he => nomatch he)⟩
    · exact hL.pending k ng hk

/-- A group without events is freed. -/
theorem linked_freeGroup (hL : Linked x s) (hg : s.groups g = some ng) (hp : ng.pending = []) :
    Linked x { s with groups := Function.update s.groups g none } := by
  refine ⟨hL.eventNext, hL.headNext, ?_, ?_, ?_, hL.head, hL.listed, hL.flags, hL.tokens, hL.count,
    hL.asked, hL.unanswered⟩
  · intro k ng₁ hk
    rcases update_some_cases hk with ⟨-, ho⟩ | ⟨-, hk⟩
    · cases ho
    · exact hL.groupNext k ng₁ hk
  · intro e ev he
    obtain ⟨ng₀, hng₀, hm⟩ := hL.group e ev he
    have hne : ev.grp ≠ g := by
      rintro rfl
      obtain rfl : ng = ng₀ := some.inj (hg.symm.trans hng₀)
      rw [hp] at hm
      cases hm
    exact ⟨ng₀, (update_of_ne hne ..).trans hng₀, hm⟩
  · intro k ng₁ hk
    rcases update_some_cases hk with ⟨-, ho⟩ | ⟨-, hk⟩
    · cases ho
    · exact hL.pending k ng₁ hk

/-- A new head. -/
theorem linked_createHead (hL : Linked x s) (m : Msg) :
    Linked x { s with
      next := s.next + 1
      heads := Function.update s.heads s.next (some ⟨[], m, eIo, 0, m.isAsk, none, 0, false⟩) } := by
  refine ⟨fun e ev he => Nat.lt_succ_of_lt (hL.eventNext e ev he), ?_,
    fun g ng hg => Nat.lt_succ_of_lt (hL.groupNext g ng hg), hL.group, hL.pending, ?_, ?_, hL.flags,
    hL.tokens, ?_, ?_, ?_⟩
  · intro k hd hk
    rcases update_some_cases hk with ⟨rfl, -⟩ | ⟨-, hk⟩
    · exact Nat.lt_succ_self _
    · exact Nat.lt_succ_of_lt (hL.headNext k hd hk)
  · intro e ev h he hh
    obtain ⟨hd, hhd, hm, ht⟩ := hL.head e ev h he hh
    have hne : h ≠ s.next := (hL.headNext h hd hhd).ne
    exact ⟨hd, (update_of_ne hne ..).trans hhd, hm, ht⟩
  · intro k hd hk
    rcases update_some_cases hk with ⟨-, ho⟩ | ⟨-, hk⟩
    · cases ho
      exact ⟨List.nodup_nil, (fun e he => nomatch he)⟩
    · exact hL.listed k hd hk
  · intro k hd hk hx
    rcases update_some_cases hk with ⟨-, ho⟩ | ⟨-, hk⟩
    · cases ho
      rfl
    · exact hL.count k hd hk hx
  · intro k hd hk
    rcases update_some_cases hk with ⟨-, ho⟩ | ⟨-, hk⟩
    · cases ho
      exact ⟨rfl, fun _ => rfl⟩
    · exact hL.asked k hd hk
  · intro k hd hk hx
    rcases update_some_cases hk with ⟨-, ho⟩ | ⟨-, hk⟩
    · cases ho
      exact fun _ => rfl
    · exact hL.unanswered k hd hk hx

/-- The store behind a delivery that expects an answer. -/
def delivered (s : Store) (g h : ℕ) (ng : Group) (hd : Head) : Store :=
  { groups := Function.update s.groups g (some { ng with pending := s.next :: ng.pending })
    heads := Function.update s.heads h
      (some { hd with events := s.next :: hd.events, eventcount := hd.eventcount + 1 })
    events := Function.update s.events s.next (some ⟨g, some h, false, false, hd.m.token⟩)
    next := s.next + 1
    sent := s.sent ++ [⟨g, ng.uid, .msg hd.m⟩]
    log := s.log ++ [(h, .deliver g)] }

theorem linked_delivered (hL : Linked none s) (hg : s.groups g = some ng) (hh : s.heads h = some hd)
    (hask : hd.m.isAsk = true) (htok : ∀ e ∈ ng.pending, ∀ ev, s.events e = some ev → ev.token ≠ hd.m.token) :
    Linked none (delivered s g h ng hd) := by
  -- the new event has an address that nobody uses yet
  have hnew : ∀ {e : ℕ} {ev : Event}, s.events e = some ev → e ≠ s.next :=
    fun he => (hL.eventNext _ _ he).ne
  have hold : ∀ {e : ℕ} {ev : Event}, s.events e = some ev →
      (delivered s g h ng hd).events e = some ev :=
    fun he => (update_of_ne (hnew he) ..).trans he
  have hnotin : ∀ {l : List ℕ}, (∀ e ∈ l, ∃ ev, s.events e = some ev) → s.next ∉ l := by
    intro l hl hm
    obtain ⟨ev, he⟩ := hl _ hm
    exact hnew he rfl
  have hpend : s.next ∉ ng.pending :=
    hnotin fun e he => (hL.pending g ng hg).2 e he |>.imp fun _ h => h.1
  have hlist : ∀ {k hd₀}, s.heads k = some hd₀ → s.next ∉ hd₀.events :=
    fun hk => hnotin fun e he => ((hL.listed _ _ hk).2 e he).imp fun _ h => h.1
  refine ⟨?_, ?_, ?_, ?_, ?_, ?_, ?_, ?_, ?_, ?_, ?_, ?_⟩
  · intro e ev he
    rcases update_some_cases he with ⟨rfl, -⟩ | ⟨-, he⟩
    · exact Nat.lt_succ_self _
    · exact Nat.lt_succ_of_lt (hL.eventNext e ev he)
  · intro k hd₁ hk
    rcases update_some_cases hk with ⟨rfl, -⟩ | ⟨-, hk⟩
    · exact Nat.lt_succ_of_lt (hL.headNext k hd hh)
    · exact Nat.lt_succ_of_lt (hL.headNext k hd₁ hk)
  · intro k ng₁ hk
    rcases update_some_cases hk with ⟨rfl, -⟩ | ⟨-, hk⟩
    · exact Nat.lt_succ_of_lt (hL.groupNext k ng hg)
    · exact Nat.lt_succ_of_lt (hL.groupNext k ng₁ hk)
  · intro e ev he
    rcases update_some_cases he with ⟨rfl, ho⟩ | ⟨-, he⟩
    · cases ho
      exact ⟨_, update_self .., List.mem_cons_self⟩
    · obtain ⟨ng₀, hng₀, hm⟩ := hL.group e ev he
      by_cases hk : ev.grp = g
      · subst hk
        obtain rfl : ng = ng₀ := some.inj (hg.symm.trans hng₀)
        exact ⟨_, update_self .., List.mem_cons_of_mem _ hm⟩
      · exact ⟨ng₀, (update_of_ne hk ..).trans hng₀, hm⟩
  · intro k ng₁ hk
    rcases update_some_cases hk with ⟨rfl, ho⟩ | ⟨-, hk⟩
    · cases ho
      obtain ⟨hnd, hmem⟩ := hL.pending k ng hg
      refine ⟨List.nodup_cons.mpr ⟨hpend, hnd⟩, fun e he => ?_⟩
      rcases List.mem_cons.mp he with rfl | he
      · exact ⟨_, update_self .., rfl⟩
      · obtain ⟨ev, hev, hgrp⟩ := hmem e he
        exact ⟨ev, hold hev, hgrp⟩
    · obtain ⟨hnd, hmem⟩ := hL.pending k ng₁ hk
      refine ⟨hnd, fun e he => ?_⟩
      obtain ⟨ev, hev, hgrp⟩ := hmem e he
      exact ⟨ev, hold hev, hgrp⟩
  · intro e ev k he hk
    rcases update_some_cases he with ⟨rfl, ho⟩ | ⟨-, he⟩
    · cases ho
      cases hk
      exact ⟨_, update_self .., List.mem_cons_self, rfl⟩
    · obtain ⟨hd₀, hhd₀, hm, ht⟩ := hL.head e ev k he hk
      by_cases hkh : k = h
      · subst hkh
        obtain rfl : hd = hd₀ := some.inj (hh.symm.trans hhd₀)
        exact ⟨_, update_self .., List.mem_cons_of_mem _ hm, ht⟩
      · exact ⟨hd₀, (update_of_ne hkh ..).trans hhd₀, hm, ht⟩
  · intro k hd₁ hk
    rcases update_some_cases hk with ⟨rfl, ho⟩ | ⟨-, hk⟩
    · cases ho
      obtain ⟨hnd, hmem⟩ := hL.listed k hd hh
      refine ⟨List.nodup_cons.mpr ⟨hlist hh, hnd⟩, fun e he => ?_⟩
      rcases List.mem_cons.mp he with rfl | he
      · exact ⟨_, update_self .., rfl⟩
      · obtain ⟨ev, hev, hhead⟩ := hmem e he
        exact ⟨ev, hold hev, hhead⟩
    · obtain ⟨hnd, hmem⟩ := hL.listed k hd₁ hk
      refine ⟨hnd, fun e he => ?_⟩
      obtain ⟨ev, hev, hhead⟩ := hmem e he
      exact ⟨ev, hold hev, hhead⟩
  · intro e ev he
    rcases update_some_cases he with ⟨rfl, ho⟩ | ⟨-, he⟩
    · cases ho
      exact ⟨rfl, rfl⟩
    · exact hL.flags e ev he
  · -- the group knew no event with this token
    have hdiff : ∀ {e ev}, s.events e = some ev → ev.grp = g → ev.token ≠ hd.m.token := by
      intro e ev he hgrp
      obtain ⟨ng₀, hng₀, hm⟩ := hL.group e ev he
      obtain rfl : ng = ng₀ := some.inj (hg.symm.trans (hgrp ▸ hng₀))
      exact htok e hm ev he
    intro e ev e' ev' he he' hgrp ht
    rcases update_some_cases he with ⟨rfl, ho⟩ | ⟨-, he⟩ <;>
      rcases update_some_cases he' with ⟨rfl, ho'⟩ | ⟨-, he'⟩
    · rfl
    · cases ho
      exact absurd ht.symm (hdiff he' hgrp.symm)
    · cases ho'
      exact absurd ht (hdiff he hgrp)
    · exact hL.tokens e ev e' ev' he he' hgrp ht
  · have hsame : ∀ {k hd₀}, s.heads k = some hd₀ →
        waiting (delivered s g h ng hd) hd₀.events = waiting s hd₀.events := by
      intro k hd₀ hk
      refine waiting_congr fun e he => ?_
      have hne : e ≠ s.next := fun heq => hlist hk (heq ▸ he)
      exact update_of_ne hne ..
    intro k hd₁ hk _
    rcases update_some_cases hk with ⟨rfl, ho⟩ | ⟨-, hk⟩
    · cases ho
      have hc := hL.count k hd hh nofun
      have hself : (delivered s g k ng hd).events s.next =
          some ⟨g, some k, false, false, hd.m.token⟩ := update_self ..
      have hcons : waiting (delivered s g k ng hd) (s.next :: hd.events) =
          waiting (delivered s g k ng hd) hd.events + 1 := by
        rw [waiting, List.countP_cons, hself]
        rfl
      change hd.eventcount + 1 = (waiting (delivered s g k ng hd) (s.next :: hd.events) : ℤ)
      rw [hcons, hsame hh, hc]
      rfl
    · rw [hsame hk]
      exact hL.count k hd₁ hk nofun
  · intro k hd₁ hk
    rcases update_some_cases hk with ⟨rfl, ho⟩ | ⟨-, hk⟩
    · cases ho
      refine ⟨(hL.asked k hd hh).1, fun hno => ?_⟩
      rw [show (_ : Head).m.isAsk = hd.m.isAsk from rfl, hask] at hno
      cases hno
    · exact hL.asked k hd₁ hk
  · intro k hd₁ hk _
    rcases update_some_cases hk with ⟨rfl, ho⟩ | ⟨-, hk⟩
    · cases ho
      exact hL.unanswered k hd hh nofun
    · exact hL.unanswered k hd₁ hk nofun

end Anoubis.Proto.Notify

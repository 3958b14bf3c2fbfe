import Anoubis.Lib.FirstMatch
import Anoubis.Pe.Scope

/-! The verdict of the sandbox and the rule it is attributed to (`pe_decide_sandbox`).

    At each priority every requested access mode takes its first match. A deny or ask ends the search.
    The code keeps one result for each mode; a mode that is not requested has the result "allowed by
    rule 0". The verdict does not depend on these. The report does: it names the last mode whose result
    agrees with the verdict.

        read, write, exec   -->  verdict: the worst of the requested modes
                            -->  report:  the last mode that agrees with it  -/

namespace Anoubis.Pe

open List

open Anoubis.Apn Anoubis.Lib Option

/-! ### The first matches decide -/

section Spec

variable (ev : FileEvent) (first : Prio → Mode → Option Rule)

/-- The rule `r` is the first match of a requested mode. -/
def Matched (i : Prio) (m : Mode) (r : Rule) : Prop := Requested ev m ∧ first i m = some r

/-- Some requested mode gets this action. -/
def Gets (i : Prio) (a : Action) : Prop := ∃ m r, Matched ev first i m r ∧ sbAction r = a

/-- A first match of this mode is deny or ask. -/
def stopsMode (i : Prio) (m : Mode) : Bool :=
  decide (Requested ev m) && (first i m).any fun r => sbAction r = .deny || sbAction r = .ask

/-- The search ends at this priority. -/
def stops (i : Prio) : Bool :=
  stopsMode ev first i .read || stopsMode ev first i .write || stopsMode ev first i .exec

/-- The priorities up to the one that ends the search. -/
def consider : List Prio → List Prio
  | [] => []
  | i :: is => i :: if stops ev first i then [] else consider is

/-- The priorities that are looked at. -/
def considered : List Prio := consider ev first Prio.all

/-- The verdict: deny if a requested mode is denied at a priority that is looked at, else ask if one
    asks, else allow. -/
def Decides : Action → Prop
  | .deny => ∃ i, Prio.all.find? (stops ev first) = some i ∧ Gets ev first i .deny
  | .ask => ∃ i, Prio.all.find? (stops ev first) = some i ∧ Gets ev first i .ask ∧
      ¬ Gets ev first i .deny
  | .allow => Prio.all.find? (stops ev first) = none
  | .continue => False

theorem stopsMode_iff (i : Prio) (m : Mode) : stopsMode ev first i m = true ↔
    ∃ r, Matched ev first i m r ∧ (sbAction r = .deny ∨ sbAction r = .ask) := by
  rw [stopsMode, Bool.and_eq_true, decide_eq_true_iff]
  cases h : first i m with
  | none => simp [Matched, h]
  | some r => simp [Matched, h]

theorem stops_iff (i : Prio) : stops ev first i = true ↔ Gets ev first i .deny ∨ Gets ev first i .ask := by
  have hmodes : stops ev first i = true ↔ ∃ m, stopsMode ev first i m = true := by
    rw [stops, Bool.or_eq_true, Bool.or_eq_true]
    constructor
    · rintro ((h | h) | h)
      · exact ⟨_, h⟩
      · exact ⟨_, h⟩
      · exact ⟨_, h⟩
    · rintro ⟨m, h⟩
      cases m with
      | read => exact .inl (.inl h)
      | write => exact .inl (.inr h)
      | exec => exact .inr h
  simp only [hmodes, stopsMode_iff, Gets]
  constructor
  · rintro ⟨m, r, hr, h | h⟩
    · exact .inl ⟨m, r, hr, h⟩
    · exact .inr ⟨m, r, hr, h⟩
  · rintro (⟨m, r, hr, h⟩ | ⟨m, r, hr, h⟩)
    · exact ⟨m, r, hr, .inl h⟩
    · exact ⟨m, r, hr, .inr h⟩

end Spec

/-! ### The results of the modes -/

/-- The last first match of every mode, with its priority. -/
abbrev Slots := Mode → Option (Prio × Rule)

section Slots

variable (ev : FileEvent) (first : Prio → Mode → Option Rule)

def Slots.update (s : Slots) (i : Prio) : Slots := fun m => ((first i m).map (Prod.mk i)).or (s m)

/-- The slots after some priorities. -/
def Slots.after (s : Slots) (is : List Prio) : Slots := is.foldl (Slots.update first) s

/-- Some requested mode has this action in its slot. -/
def Slots.Gets (s : Slots) (a : Action) : Prop :=
  ∃ m i r, Requested ev m ∧ s m = some (i, r) ∧ sbAction r = a

/-- No requested mode is denied or asks. -/
def Slots.Quiet (s : Slots) : Prop := ¬ s.Gets ev .deny ∧ ¬ s.Gets ev .ask

def Slots.empty : Slots := fun _ => none

theorem Slots.quiet_empty : Slots.empty.Quiet ev := by
  constructor <;> · rintro ⟨m, i, r, -, h, -⟩; simp [Slots.empty] at h

variable {ev first}

theorem Slots.gets_update {s : Slots} {a : Action} (h : ¬ s.Gets ev a) (i : Prio) :
    (s.update first i).Gets ev a ↔ Pe.Gets ev first i a := by
  constructor
  · rintro ⟨m, j, r, hm, hs, ha⟩
    rcases or_eq_some_iff.mp hs with hs | ⟨-, hs⟩
    · obtain ⟨r', hr', heq⟩ := map_eq_some_iff.mp hs
      obtain ⟨rfl, rfl⟩ := Prod.mk.inj heq
      exact ⟨m, r', ⟨hm, hr'⟩, ha⟩
    · exact absurd ⟨m, j, r, hm, hs, ha⟩ h
  · rintro ⟨m, r, ⟨hm, hr⟩, ha⟩
    exact ⟨m, i, r, hm, by rw [Slots.update, hr, map_some, some_or], ha⟩

theorem Slots.Quiet.update {s : Slots} (h : s.Quiet ev) {i : Prio} (hi : stops ev first i = false) :
    (s.update first i).Quiet ev := by
  have hno : ¬ (Pe.Gets ev first i .deny ∨ Pe.Gets ev first i .ask) := by
    rw [← stops_iff, hi]
    exact Bool.false_ne_true
  rw [not_or] at hno
  exact ⟨(Slots.gets_update h.1 i).not.mpr hno.1, (Slots.gets_update h.2 i).not.mpr hno.2⟩

variable {is : List Prio}

/-- What ends up in a slot is the first match at one of the priorities. -/
theorem Slots.of_after : ∀ {s : Slots} {m : Mode} {i : Prio} {r : Rule},
    s.after first is m = some (i, r) → s m = some (i, r) ∨ i ∈ is ∧ first i m = some r := by
  induction is with
  | nil => exact fun h => .inl h
  | cons j is ih =>
    intro s m i r h
    rcases ih (s := s.update first j) h with h | ⟨hi, hr⟩
    · rcases or_eq_some_iff.mp h with h | ⟨-, h⟩
      · obtain ⟨r', hr', heq⟩ := map_eq_some_iff.mp h
        cases heq
        exact .inr ⟨mem_cons_self, hr'⟩
      · exact .inl h
    · exact .inr ⟨mem_cons_of_mem _ hi, hr⟩

/-- Deny and ask come from the priority that ends the search. -/
theorem Slots.gets_consider {a : Action} (ha : a = .deny ∨ a = .ask) :
    ∀ {s : Slots}, s.Quiet ev → ((s.after first (consider ev first is)).Gets ev a ↔
      ∃ i, is.find? (stops ev first) = some i ∧ Pe.Gets ev first i a) := by
  induction is with
  | nil =>
    intro s hs
    refine iff_of_false ?_ (by simp)
    rcases ha with rfl | rfl
    · exact hs.1
    · exact hs.2
  | cons i is ih =>
    intro s hs
    rw [consider, find?_cons]
    cases hi : stops ev first i with
    | true =>
      rw [if_pos rfl]
      have hg : ¬ s.Gets ev a := by
        rcases ha with rfl | rfl
        · exact hs.1
        · exact hs.2
      simpa [Slots.after] using Slots.gets_update hg i
    | false =>
      rw [if_neg Bool.false_ne_true]
      exact ih (hs.update hi)

end Slots

/-! ### The code keeps these results -/

/-- A requested mode has the result of its slot. The others are allowed, by rule 0 of the first
    priority, once some rules have been evaluated (`t`). -/
structure Tracks (ev : FileEvent) (s : Slots) (t : Bool) (res : Results) : Prop where
  empty : ∀ m, Requested ev m → s m = none → (res.get m).decision = none
  full : ∀ m i r, Requested ev m → s m = some (i, r) →
    (res.get m).decision = some (sbAction r) ∧ (res.get m).ruleId = replyId r.id ∧
      (res.get m).prio = i
  other : ∀ m, ¬ Requested ev m → (res.get m).decision = (if t then some .allow else none) ∧
    (res.get m).ruleId = 0 ∧ (res.get m).prio = .admin

theorem tracks_init (ev : FileEvent) : Tracks ev Slots.empty false Results.init where
  empty m _ _ := by cases m <;> rfl
  full m i r _ h := by simp [Slots.empty] at h
  other m _ := by cases m <;> exact ⟨rfl, rfl, rfl⟩

variable {w : World} {now : ℕ} {s : Slots} {res : Results} {i : Prio}
variable {r : Rule} {t : Bool} {a d : Action} {rules : Prio → List Rule} {m : Mode}

theorem applyMatch_sbMatch {ev : FileEvent} {atype : ℕ} {rules : List Rule}
    (h : sbMatch w ev now atype none rules = some r) (res : Result) (i : Prio) :
    (applyMatch res i r).ruleId = replyId r.id ∧ (applyMatch res i r).prio = i := by
  rw [sbMatch_eq, none_or] at h
  have hbody : sbHit w ev now atype r = true ∨ isDefault r = true := of_firstMatch h
  cases hb : r.body <;> simp_all [sbHit, isDefault, applyMatch]

/-- One priority. -/
theorem Tracks.evaluate {ev : FileEvent} (h : Tracks ev s t res) {first : Prio → Mode → Option Rule}
    {rules : List Rule} (hfirst : ∀ m, first i m = sbMatch w ev now m.atype none rules) :
    Tracks ev (s.update first i) true (evaluateAll w rules ev now res i) where
  empty m hm hs := by
    obtain ⟨hf, hs⟩ := or_eq_none_iff.mp hs
    rw [map_eq_none_iff, hfirst m] at hf
    rw [get_evaluateAll, peSbEvaluate, if_neg hm, hf]
    exact h.empty m hm hs
  full m j r hm hs := by
    rw [get_evaluateAll, peSbEvaluate, if_neg hm, ← hfirst m]
    rw [Slots.update] at hs
    cases hf : first i m with
    | none =>
      rw [hf, map_none, none_or] at hs
      exact h.full m j r hm hs
    | some r' =>
      rw [hf, map_some, some_or, Option.some.injEq, Prod.mk.injEq] at hs
      obtain ⟨rfl, rfl⟩ := hs
      exact ⟨decision_applyMatch _ _ _, applyMatch_sbMatch ((hfirst m).symm.trans hf) _ _⟩
  other m hm := by
    rw [get_evaluateAll, peSbEvaluate, if_pos (not_not.mp hm)]
    exact ⟨rfl, (h.other m hm).2⟩

/-- A priority without rules. -/
theorem Slots.update_nil {first : Prio → Mode → Option Rule} (h : ∀ m, first i m = none) (s : Slots) :
    s.update first i = s := by
  funext m
  rw [Slots.update, h m, map_none, none_or]

theorem stops_nil {ev : FileEvent} {first : Prio → Mode → Option Rule} (h : ∀ m, first i m = none) :
    stops ev first i = false := by
  simp [stops, stopsMode, h]

/-- Deny and ask are in the results iff they are in a slot. -/
theorem Tracks.mem_decisions {ev : FileEvent} (h : Tracks ev s t res) (ha : a ≠ .allow) :
    some a ∈ res.decisions ↔ s.Gets ev a := by
  rw [Pe.mem_decisions]
  constructor
  · rintro ⟨m, hm⟩
    by_cases hreq : Requested ev m
    · cases hs : s m with
      | none => simp [h.empty m hreq hs] at hm
      | some x =>
        obtain ⟨i, r⟩ := x
        rw [(h.full m i r hreq hs).1, Option.some.injEq] at hm
        exact ⟨m, i, r, hreq, hs, hm⟩
    · rw [(h.other m hreq).1] at hm
      cases t <;> simp [Ne.symm ha] at hm
  · rintro ⟨m, i, r, hreq, hs, hr⟩
    exact ⟨m, by rw [(h.full m i r hreq hs).1, hr]⟩

/-- The verdict on the slots. -/
def Slots.Decides (ev : FileEvent) (s : Slots) : Action → Prop
  | .deny => s.Gets ev .deny
  | .ask => s.Gets ev .ask ∧ ¬ s.Gets ev .deny
  | .allow => s.Quiet ev
  | .continue => False

theorem Tracks.decides {ev : FileEvent} (h : Tracks ev s t res) : s.Decides ev (worst res.decisions) := by
  have hdeny := h.mem_decisions (show Action.deny ≠ .allow by decide)
  have hask := h.mem_decisions (show Action.ask ≠ .allow by decide)
  rw [worst]
  split
  · exact hdeny.mp ‹_›
  · split
    · exact ⟨hask.mp ‹_›, hdeny.not.mp ‹_›⟩
    · exact ⟨hdeny.not.mp ‹_›, hask.not.mp ‹_›⟩

/-- The loop over the priorities keeps the slots of the priorities that it looks at. Without any rules
    there is no verdict. -/
theorem sbLoop_tracks {ev : FileEvent} {first : Prio → Mode → Option Rule}
    (hfirst : ∀ i m, first i m = sbMatch w ev now m.atype none (rules i)) :
    ∀ (is : List Prio) {s : Slots} {t : Bool} {res : Results} {final : Option Action},
      Tracks ev s t res → s.Quiet ev →
      (final = none ∧ t = false ∧ s = Slots.empty ∨ final = some .allow ∧ t = true) →
      let out := sbLoop w (fun i => .ok (rules i)) ev now is res final
      ∃ t', Tracks ev (s.after first (consider ev first is)) t' out.1 ∧
        (out.2 = none ∧ s.after first (consider ev first is) = Slots.empty ∨
          t' = true ∧ ∃ a, out.2 = some a ∧ (s.after first (consider ev first is)).Decides ev a) := by
  intro is
  induction is with
  | nil =>
    intro s t res final h hq hf
    refine ⟨t, h, ?_⟩
    rcases hf with ⟨rfl, -, rfl⟩ | ⟨rfl, rfl⟩
    · exact .inl ⟨rfl, rfl⟩
    · exact .inr ⟨rfl, .allow, rfl, hq⟩
  | cons i is ih =>
    intro s t res final h hq hf
    rw [consider]
    by_cases hnil : rules i = []
    · have hnone : ∀ m, first i m = none := by
        intro m
        rw [hfirst i m, hnil]
        rfl
      rw [stops_nil hnone, if_neg Bool.false_ne_true]
      simp only [sbLoop, hnil, isEmpty_nil, if_true]
      have hafter := ih h hq hf
      rwa [Slots.after, foldl_cons, Slots.update_nil hnone]
    · have ht : Tracks ev (s.update first i) true (evaluateAll w (rules i) ev now res i) :=
        h.evaluate fun m => hfirst i m
      have hfinal : final = none ∨ final = some .allow := hf.imp And.left And.left
      have hdec := ht.decides
      simp only [sbLoop, List.isEmpty_iff, hnil, if_false, mergeDecisions_worst hfinal]
      cases hstop : stops ev first i with
      | true =>
        have hne : worst (evaluateAll w (rules i) ev now res i).decisions ≠ .allow := by
          intro ha
          rw [ha] at hdec
          rcases (stops_iff ev first i).mp hstop with hg | hg
          · exact hdec.1 ((Slots.gets_update hq.1 i).mpr hg)
          · exact hdec.2 ((Slots.gets_update hq.2 i).mpr hg)
        rw [if_pos rfl, if_pos ⟨by simp, by simpa using hne⟩]
        exact ⟨true, ht, .inr ⟨rfl, _, rfl, hdec⟩⟩
      | false =>
        have hq' := hq.update hstop
        have ha : worst (evaluateAll w (rules i) ev now res i).decisions = .allow := by
          cases hw : worst (evaluateAll w (rules i) ev now res i).decisions with
          | allow => rfl
          | deny =>
            rw [hw] at hdec
            exact absurd hdec hq'.1
          | ask =>
            rw [hw] at hdec
            exact absurd hdec.1 hq'.2
          | «continue» =>
            rw [hw] at hdec
            exact hdec.elim
        rw [if_neg Bool.false_ne_true, ha, if_neg (by simp)]
        exact ih ht hq' (.inr ⟨rfl, rfl⟩)

/-! ### The report -/

/-- The last mode, in the order read, write, exec, that agrees. -/
def lastAgreeing (agree : Mode → Bool) : Option Mode :=
  if agree .exec then some .exec
  else if agree .write then some .write
  else if agree .read then some .read
  else none

/-- The reporting loop takes rule and priority from the last result that agrees with the verdict. -/
theorem report_eq (d : Action) (res : Results) : (report d res).2 =
    (lastAgreeing fun m => (res.get m).decision = some d).elim (0, .admin)
      fun m => ((res.get m).ruleId, (res.get m).prio) := by
  simp only [report, foldl_cons, foldl_nil, reportStep]
  by_cases hexec : res.exec.decision = some d
  · simp [lastAgreeing, Results.get, hexec]
  · by_cases hwrite : res.write.decision = some d
    · simp [lastAgreeing, Results.get, hexec, hwrite]
    · by_cases hread : res.read.decision = some d
      · simp [lastAgreeing, Results.get, hexec, hwrite, hread]
      · simp [lastAgreeing, Results.get, hexec, hwrite, hread]

/-- A mode counts for the report if its slot agrees with the verdict, or if it was not requested and
    the verdict is allow. -/
def Slots.agrees (ev : FileEvent) (s : Slots) (d : Action) (m : Mode) : Bool :=
  if Requested ev m then (s m).any fun x => sbAction x.2 = d else d = .allow

theorem Tracks.agrees {ev : FileEvent} (h : Tracks ev s true res) (d : Action) (m : Mode) :
    decide ((res.get m).decision = some d) = s.agrees ev d m := by
  rw [Slots.agrees]
  split
  · rename_i hm
    cases hs : s m with
    | none => simp [h.empty m hm hs]
    | some x => simp [(h.full m x.1 x.2 hm hs).1]
  · rename_i hm
    simp [(h.other m hm).1, eq_comm]

theorem agrees_of_lastAgreeing {agree : Mode → Bool} (h : lastAgreeing agree = some m) : agree m = true := by
  simp only [lastAgreeing] at h
  split at h
  · rename_i ha
    rwa [← some.inj h]
  · split at h
    · rename_i ha
      rwa [← some.inj h]
    · split at h
      · rename_i ha
        rwa [← some.inj h]
      · simp at h

/-! ### Verdict and attribution -/

section Claim

variable (ev : FileEvent) (first : Prio → Mode → Option Rule)

/-- Reply and ask flag say what the first matches decide. -/
structure SbVerdict (reply : Reply) : Prop where
  deny : reply.reply = eperm ↔ Decides ev first .deny
  ask : reply.ask = true ↔ Decides ev first .ask
  allow : reply.reply = 0 ∧ reply.ask = false ↔ Decides ev first .allow

/-- The rule of a requested mode that was looked at and has this action. -/
def Decisive (d : Action) (i : Prio) (m : Mode) (r : Rule) : Prop :=
  i ∈ considered ev first ∧ Matched ev first i m r ∧ sbAction r = d

/-- If a rule has the action of the verdict, the reply names such a rule. -/
def Attributed (reply : Reply) : Prop :=
  ∀ d, Decides ev first d → (∃ i m r, Decisive ev first d i m r) →
    ∃ i m r, Decisive ev first d i m r ∧ reply.ruleId = r.id ∧ reply.prio = some i

/-- A decisive rule at this priority has this ID by chance. -/
def HasId (d : Action) (i : Prio) (id : ℕ) : Prop := ∃ m r, Decisive ev first d i m r ∧ r.id = id

/-- The slots in the end. -/
def finalSlots : Slots := Slots.empty.after first (considered ev first)

/-- The last mode that agrees with the verdict was requested, and the ID of its rule fits into 32 bits.
    Else only a rule that has the number by chance can be named: the low half of the ID, or 0. -/
def LastRequested (d : Action) : Prop :=
  match (lastAgreeing ((finalSlots ev first).agrees ev d)).bind
      (fun m => if Requested ev m then finalSlots ev first m else none) with
  | some (i, r) => r.id < 2 ^ 32 ∨ HasId ev first d i (r.id % 2 ^ 32)
  | none => HasId ev first d .admin 0

end Claim

variable {ev : FileEvent} {first : Prio → Mode → Option Rule}

theorem decides_iff : Decides ev first d ↔ (finalSlots ev first).Decides ev d := by
  have hgets : ∀ {a}, (a = .deny ∨ a = .ask) → ((finalSlots ev first).Gets ev a ↔
      ∃ i, Prio.all.find? (stops ev first) = some i ∧ Gets ev first i a) :=
    fun ha => Slots.gets_consider ha (Slots.quiet_empty ev)
  have hdeny := hgets (.inl rfl)
  have hask := hgets (.inr rfl)
  cases d with
  | deny => exact hdeny.symm
  | ask =>
    rw [Decides, Slots.Decides, hask, hdeny]
    constructor
    · rintro ⟨i, hi, ha, hd⟩
      refine ⟨⟨i, hi, ha⟩, ?_⟩
      rintro ⟨j, hj, hd'⟩
      cases hi.symm.trans hj
      exact hd hd'
    · rintro ⟨⟨i, hi, ha⟩, hd⟩
      exact ⟨i, hi, ha, fun h => hd ⟨i, hi, h⟩⟩
  | allow =>
    rw [Decides, Slots.Decides, Slots.Quiet, hdeny, hask]
    cases hfind : Prio.all.find? (stops ev first) with
    | none => simp
    | some i =>
      refine iff_of_false (by simp) ?_
      rintro ⟨hd, ha⟩
      rcases (stops_iff ev first i).mp (find?_some hfind) with h | h
      · exact hd ⟨i, rfl, h⟩
      · exact ha ⟨i, rfl, h⟩
  | «continue» => exact .rfl

/-- The verdict is unique. -/
theorem Slots.Decides.unique {b : Action} (ha : s.Decides ev a) (hb : s.Decides ev b) : a = b := by
  cases a <;> cases b <;> simp_all [Slots.Decides, Slots.Quiet]

/-- What stands in a slot is decisive. -/
theorem decisive_of_slot (hm : Requested ev m) (hs : finalSlots ev first m = some (i, r)) (hr : sbAction r = d) :
    Decisive ev first d i m r := by
  rcases Slots.of_after hs with h | ⟨hi, hf⟩
  · simp [Slots.empty] at h
  · exact ⟨hi, ⟨hm, hf⟩, hr⟩

/-- The reply in the end. -/
theorem peDecideSandbox_slots {hash : Text → ℕ} {db : PolicyDb} {proc : Option Proc}
    (hrules : ∀ i, peSbGetrules hash db proc ev.uid i ev.path = .ok (rules i))
    (hfirst : ∀ i m, first i m = sbMatch w ev now m.atype none (rules i)) :
    ∃ d, Decides ev first d ∧ (peDecideSandbox hash w db proc ev now).reply = (if d = .deny then eperm else 0) ∧
      (peDecideSandbox hash w db proc ev now).ask = decide (d = .ask) ∧ ((∃ i m r, Decisive ev first d i m r) →
        ((peDecideSandbox hash w db proc ev now).ruleId, (peDecideSandbox hash w db proc ev now).prio) =
          ((lastAgreeing ((finalSlots ev first).agrees ev d)).bind
            fun m => if Requested ev m then finalSlots ev first m else none).elim (0, some .admin)
              fun x => (replyId x.2.id, some x.1)) := by
  have hloop := sbLoop_tracks hfirst Prio.all (tracks_init ev) (Slots.quiet_empty ev) (.inl ⟨rfl, rfl, rfl⟩)
  have hcands : (fun i => peSbGetrules hash db proc ev.uid i ev.path) = fun i => .ok (rules i) :=
    funext hrules
  rw [peDecideSandbox, hcands]
  obtain ⟨t, htracks, hout⟩ := hloop
  generalize sbLoop w (fun i => .ok (rules i)) ev now Prio.all Results.init none = out at htracks hout ⊢
  obtain ⟨res, final⟩ := out
  have hslots : Slots.empty.after first (consider ev first Prio.all) = finalSlots ev first := rfl
  rw [hslots] at htracks hout
  rcases hout with ⟨hnone, hempty⟩ | ⟨rfl, d, hd, hdec⟩
  · obtain rfl : final = none := hnone
    refine ⟨.allow, decides_iff.mpr ?_, rfl, rfl, ?_⟩
    · rw [hempty]
      exact Slots.quiet_empty ev
    · rintro -
      rw [hempty]
      cases lastAgreeing (Slots.empty.agrees ev .allow) with
      | none => rfl
      | some m =>
        simp only [bind_some, Slots.empty, ite_self]
        rfl
  · obtain rfl : final = some d := hd
    refine ⟨d, decides_iff.mpr hdec, rfl, rfl, fun _ => ?_⟩
    have hrep := report_eq d res
    have hagree : (fun m => decide ((res.get m).decision = some d)) = (finalSlots ev first).agrees ev d :=
      funext fun m => htracks.agrees d m
    rw [hagree] at hrep
    simp only [sbReply, decisionReply]
    rw [hrep]
    cases hlast : lastAgreeing ((finalSlots ev first).agrees ev d) with
    | none => rfl
    | some m =>
      have hm := agrees_of_lastAgreeing hlast
      rw [Slots.agrees] at hm
      rw [elim_some, bind_some]
      split at hm
      · rename_i hreq
        rw [if_pos hreq]
        cases hs : finalSlots ev first m with
        | none => simp [hs] at hm
        | some x =>
          obtain ⟨-, hid, hprio⟩ := htracks.full m x.1 x.2 hreq hs
          simp only [elim_some, hid, hprio]
      · rename_i hreq
        rw [if_neg hreq]
        obtain ⟨-, hid, hprio⟩ := htracks.other m hreq
        simp only [elim_none, hid, hprio]

/-- The first match of a mode: the first access rule in scope that applies, else the first default. -/
def sbFirstMatch (w : World) (ev : FileEvent) (now : ℕ) (rules : Prio → List Rule) (i : Prio) (m : Mode) :
    Option Rule :=
  firstMatch (sbHit w ev now m.atype) isDefault (rules i)

def etcRs : Ruleset :=
  { demoRs with sbQueue := [⟨2, 1, .sb, [], Flags.none,
      [⟨3, 7, none, .sbAccess (some "/etc".toList) .none (sbaRead + sbaExec) .none .allow⟩]⟩] }

def etcDb : PolicyDb := [⟨1000, ⟨none, some etcRs⟩⟩]

def etcEvent (amask : ℕ) : FileEvent := ⟨7, some "/etc/passwd".toList, [], amask, 1000, false, false⟩

def etcRules (i : Prio) : List Rule := ((sbBlock etcDb none 1000 i).map (·.chain)).getD []

theorem etc_getrules (i : Prio) :
    peSbGetrules hashFn etcDb none 1000 i (some "/etc/passwd".toList) = .ok (etcRules i) := by
  cases i <;> decide +kernel

end Anoubis.Pe

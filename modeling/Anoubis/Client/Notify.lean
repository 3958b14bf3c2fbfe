import Anoubis.Client.Client

/-! The notifications of a client (`anoubis_client.c`).

    Messages that arrive wait in a list of the client, linked by their `next` pointers from `notify` to `tail`,
    until `anoubis_client_getnotify` takes them. A message goes in behind `tail`, but its own `next` is the old
    `tail`, and `tail` does not move. One message is a list. Two are a circle, and the third one takes the
    second out of it. -/

namespace Anoubis.Client

open List

open Anoubis.Lib Option
open Anoubis.Connection (Bytes u32)
open Anoubis.MsgVerify (verifyLength)

/-! ### The list -/

/-- struct anoubis_msg. -/
structure NotifyMsg where
  data : Bytes
  next : Option ℕ
  deriving DecidableEq

/-- The messages so far, a pointer is a place in `mem`, and the list of the client. Nothing here frees a message. -/
structure NotifyQueue where
  mem : List NotifyMsg
  notify : Option ℕ
  tail : Option ℕ
  deriving DecidableEq

/-- `anoubis_client_create`. -/
def NotifyQueue.create : NotifyQueue := ⟨[], none, none⟩

/-- The field `next` of a message. -/
def NotifyQueue.next (q : NotifyQueue) (p : ℕ) : Option ℕ := q.mem[p]?.bind NotifyMsg.next

/-- `p->next = x`. -/
def NotifyQueue.setNext (q : NotifyQueue) (p : ℕ) (x : Option ℕ) : NotifyQueue :=
  { q with mem := q.mem.modify p fun m => { m with next := x } }

/-- `queue_notify`. -/
def queueNotify (q : NotifyQueue) (m : ℕ) : NotifyQueue :=
  let q := q.setNext m q.tail
  match q.tail with
  | some t => q.setNext t (some m)
  | none => { q with notify := some m, tail := some m }

/-- `anoubis_client_getnotify`. -/
def getnotify (q : NotifyQueue) : Option ℕ × NotifyQueue :=
  match q.notify with
  | none => (none, q)
  | some m =>
    let notify := q.next m
    let tail := if notify = none then none else q.tail
    (some m, { q with notify := notify, tail := tail }.setNext m none)

/-- `anoubis_client_process_event`, for a message that has just been read. -/
def processEvent (q : NotifyQueue) (data : Bytes) : ℤ × NotifyQueue :=
  match notifyLength (u32 data 0) with
  | none => (-einval, q)
  | some size =>
    if verifyLength data size = false then (-erange, q)
    else (1, queueNotify { q with mem := q.mem ++ [⟨data, none⟩] } q.mem.length)

/-- The loop of `anoubis_client_destroy`: the messages in its order. It is `none` if there are more. -/
def drain : ℕ → NotifyQueue → Option (List ℕ)
  | 0, _ => none
  | rounds + 1, q =>
    match (getnotify q).1 with
    | none => some []
    | some m => (drain rounds (getnotify q).2).map (m :: ·)

/-! ### Runs -/

inductive NotifyOp where
  | event (data : Bytes)
  | getnotify
  deriving DecidableEq

/-- The client, and the messages that wait, in the order in which they came. -/
structure Waiting where
  queue : NotifyQueue
  pending : List ℕ
  deriving DecidableEq

def Waiting.start : Waiting := ⟨.create, []⟩

/-- A message that goes into the list. -/
def accepted (data : Bytes) : Bool :=
  match notifyLength (u32 data 0) with
  | none => false
  | some size => verifyLength data size

def Waiting.step (s : Waiting) : NotifyOp → Option Waiting
  | .event data =>
    some ⟨(processEvent s.queue data).2, if accepted data then s.pending ++ [s.queue.mem.length] else s.pending⟩
  | .getnotify => some ⟨(getnotify s.queue).2, s.pending.tail⟩

/-- `anoubis_client_getnotify` returns the first message that waits, NULL if there is none. -/
def Waiting.Fifo (s : Waiting) : NotifyOp → Prop
  | .event _ => True
  | .getnotify => (getnotify s.queue).1 = s.pending.head?

/-- `anoubis_client_destroy` returns, behind the messages that wait. -/
def Waiting.Drains (s : Waiting) : Prop := ∃ rounds, drain rounds s.queue = some s.pending

/-- No message arrives while another one waits. -/
def Waiting.Alone (s : Waiting) : NotifyOp → Prop
  | .event data => accepted data = true → s.pending = []
  | .getnotify => True

instance (s : Waiting) (op : NotifyOp) : Decidable (s.Fifo op) :=
  match op with
  | .event _ => isTrue trivial
  | .getnotify => inferInstanceAs (Decidable (_ = _))

/-! ### One operation -/

variable {q : NotifyQueue} {s s' : Waiting} {p m : ℕ} {x : Option ℕ} {data : Bytes}

@[simp] theorem tail_setNext : (q.setNext p x).tail = q.tail := rfl

@[simp] theorem length_setNext : (q.setNext p x).mem.length = q.mem.length := length_modify _ _ _

theorem next_setNext (h : p < q.mem.length) : (q.setNext p x).next p = x := by
  rw [NotifyQueue.next, NotifyQueue.setNext, getElem?_modify_eq, getElem?_eq_getElem h]
  rfl

theorem next_setNext_ne (h : m ≠ p) : (q.setNext p x).next m = q.next m := by
  rw [NotifyQueue.next, NotifyQueue.setNext, getElem?_modify]
  simp [h.symm, NotifyQueue.next]

/-- The new message, and the list with it. -/
def arrived (q : NotifyQueue) (data : Bytes) : NotifyQueue :=
  queueNotify { q with mem := q.mem ++ [⟨data, none⟩] } q.mem.length

theorem processEvent_eq (q : NotifyQueue) (data : Bytes) :
    (processEvent q data).2 = if accepted data then arrived q data else q := by
  rw [processEvent, accepted]
  cases notifyLength (u32 data 0) with
  | none => rfl
  | some size =>
    change ((if verifyLength data size = false then (-erange, q) else (1, arrived q data) : ℤ × NotifyQueue)).2 =
      if verifyLength data size = true then arrived q data else q
    by_cases hv : verifyLength data size = false
    · rw [if_pos hv, if_neg (by simp [hv])]
    · rw [if_neg hv, if_pos (by simpa using hv)]

@[simp] theorem length_arrived : (arrived q data).mem.length = q.mem.length + 1 := by
  rw [arrived, queueNotify]
  cases q.tail <;> simp

/-- A message that is first: both pointers. -/
theorem arrived_first (data : Bytes) (h : q.tail = none) :
    (arrived q data).notify = some q.mem.length ∧ (arrived q data).tail = some q.mem.length ∧
      (arrived q data).next q.mem.length = none := by
  rw [arrived, queueNotify]
  rw [tail_setNext, h]
  exact ⟨rfl, rfl, next_setNext (by simp)⟩

/-- Behind another one `notify` and `tail` stay, and the two messages point to each other. -/
theorem arrived_behind (data : Bytes) {t : ℕ} (h : q.tail = some t) (ht : t < q.mem.length) :
    (arrived q data).notify = q.notify ∧ (arrived q data).tail = some t ∧
      (arrived q data).next t = some q.mem.length ∧ (arrived q data).next q.mem.length = some t ∧
      ∀ p < q.mem.length, p ≠ t → (arrived q data).next p = q.next p := by
  rw [arrived, queueNotify]
  rw [tail_setNext, h]
  refine ⟨rfl, rfl, next_setNext ?_, ?_, fun p hp hne => ?_⟩
  · rw [length_setNext]
    exact Nat.lt_of_lt_of_le ht (by simp)
  · rw [next_setNext_ne (Nat.ne_of_gt ht)]
    exact next_setNext (by simp)
  · rw [next_setNext_ne hne, next_setNext_ne (Nat.ne_of_lt hp), NotifyQueue.next, getElem?_append_left hp]
    rfl

theorem getnotify_fst (q : NotifyQueue) : (getnotify q).1 = q.notify := by
  rw [getnotify]
  cases q.notify <;> rfl

theorem getnotify_none (h : q.notify = none) : (getnotify q).2 = q := by
  rw [getnotify, h]

theorem getnotify_some {m : ℕ} (h : q.notify = some m) :
    (getnotify q).2.notify = q.next m ∧ (q.next m ≠ none → (getnotify q).2.tail = q.tail) ∧
      (q.next m = none → (getnotify q).2.tail = none) ∧ (getnotify q).2.mem.length = q.mem.length ∧
      ∀ p, p ≠ m → (getnotify q).2.next p = q.next p := by
  rw [getnotify, h]
  exact ⟨rfl, fun hne => if_neg hne, fun heq => if_pos heq, length_setNext, fun p hp => next_setNext_ne hp⟩

/-! ### One message -/

/-- At most one message waits. -/
inductive Single : Waiting → Prop where
  | empty (s : Waiting) (pending : s.pending = []) (notify : s.queue.notify = none) (tail : s.queue.tail = none) :
      Single s
  | one (s : Waiting) (m : ℕ) (pending : s.pending = [m]) (old : m < s.queue.mem.length)
      (notify : s.queue.notify = some m) (tail : s.queue.tail = some m) (next : s.queue.next m = none) : Single s

theorem single_start : Single .start := .empty _ rfl rfl rfl

theorem Single.fifo (h : Single s) (op : NotifyOp) : s.Fifo op := by
  cases op with
  | event data => trivial
  | getnotify =>
    rw [Waiting.Fifo, getnotify_fst]
    cases h with
    | empty hp hn ht => rw [hp, hn]; rfl
    | one m hp hold hn ht hx => rw [hp, hn]; rfl

theorem Single.get (h : Single s) (hs : s.step .getnotify = some s') : Single s' ∧ s'.pending = [] := by
  cases hs
  cases h with
  | empty hp hn ht =>
    have hpend : s.pending.tail = [] := by rw [hp]; rfl
    refine ⟨.empty _ hpend ?_ ?_, hpend⟩ <;> rw [getnotify_none hn] <;> assumption
  | one m hp hold hn ht hx =>
    have hpend : s.pending.tail = [] := by rw [hp]; rfl
    obtain ⟨hnotify, -, htail, -⟩ := getnotify_some hn
    exact ⟨.empty _ hpend (hnotify.trans hx) (htail hx), hpend⟩

theorem Single.event (h : Single s) (ha : s.Alone (.event data)) (hs : s.step (.event data) = some s') : Single s' := by
  cases hs
  rw [processEvent_eq]
  cases hacc : accepted data with
  | false => exact h
  | true =>
    cases h with
    | empty hp hn ht =>
      obtain ⟨hnotify, htail, hnext⟩ := arrived_first data ht
      exact .one _ s.queue.mem.length (by simp [hp]) (by simp) hnotify htail hnext
    | one m hp hold hn ht hx => cases (ha hacc).symm.trans hp

theorem Single.drains (h : Single s) : s.Drains := by
  cases h with
  | empty hp hn ht =>
    refine ⟨1, ?_⟩
    rw [drain, getnotify_fst, hn, hp]
  | one m hp hold hn ht hx =>
    obtain ⟨hnotify, -⟩ := getnotify_some hn
    refine ⟨2, ?_⟩
    rw [drain, getnotify_fst, hn]
    dsimp only
    rw [drain, getnotify_fst, hnotify, hx, hp]
    rfl

/-! ### The circle -/

/-- Another message is first, so the next one is wrong. -/
structure Astray (s : Waiting) (w : ℕ) : Prop where
  notify : s.queue.notify = some w
  old : w < s.queue.mem.length
  first : s.pending.head? ≠ some w
  tail : ∃ t, s.queue.tail = some t ∧ t < s.queue.mem.length

/-- What two messages come to: a circle of `tail` and the last message; or, the first one taken, the last one
    points back to it; or another message is first. -/
inductive Circle : Waiting → Prop where
  | both (s : Waiting) (t last : ℕ) (rest : List ℕ) (pending : s.pending = t :: rest) (mem : last ∈ rest)
      (old : ∀ m ∈ s.pending, m < s.queue.mem.length) (nodup : s.pending.Nodup) (notify : s.queue.notify = some t)
      (tail : s.queue.tail = some t) (next : s.queue.next t = some last) (back : s.queue.next last = some t) : Circle s
  | last (s : Waiting) (t m : ℕ) (rest : List ℕ) (pending : s.pending = m :: rest) (taken : t ∉ s.pending)
      (old : ∀ m ∈ t :: s.pending, m < s.queue.mem.length) (nodup : s.pending.Nodup)
      (notify : s.queue.notify = some m) (tail : s.queue.tail = some t) (back : s.queue.next m = some t) : Circle s
  | astray (s : Waiting) (w : ℕ) (h : Astray s w) : Circle s

theorem Circle.ne_none (h : Circle s) : s.queue.notify ≠ none := by
  cases h with
  | both t last rest hp hl hold hd hn ht hx hb => simp [hn]
  | last t m rest hp htaken hold hd hn ht hb => simp [hn]
  | astray w h => simp [h.notify]

/-- The second message makes the circle. -/
theorem Single.second {m : ℕ} (hp : s.pending = [m]) (hold : m < s.queue.mem.length)
    (hn : s.queue.notify = some m) (ht : s.queue.tail = some m) (hacc : accepted data = true)
    (hs : s.step (.event data) = some s') : Circle s' := by
  cases hs
  obtain ⟨hnotify, htail, hnext, hback, -⟩ := arrived_behind data ht hold
  have hpend : s.pending ++ [s.queue.mem.length] = [m, s.queue.mem.length] := by rw [hp]; rfl
  rw [processEvent_eq, hacc, if_pos rfl, if_pos rfl, hpend]
  refine .both _ m s.queue.mem.length [s.queue.mem.length] rfl (by simp) ?_ (by simp [Nat.ne_of_lt hold]) (hnotify.trans hn)
    htail hnext hback
  intro p hmem
  rw [length_arrived]
  rcases mem_pair.mp hmem with rfl | rfl
  · exact Nat.lt_succ_of_lt hold
  · exact Nat.lt_succ_self _

theorem Circle.event (h : Circle s) (hs : s.step (.event data) = some s') : Circle s' := by
  cases hs
  rw [processEvent_eq]
  cases hacc : accepted data with
  | false => exact h
  | true =>
    rw [if_pos rfl, if_pos rfl]
    have hnew : ∀ (l : List ℕ), (∀ m ∈ l, m < s.queue.mem.length) →
        ∀ m ∈ l ++ [s.queue.mem.length], m < (arrived s.queue data).mem.length := by
      intro l hl m hm
      rw [length_arrived]
      rcases mem_append.mp hm with hm | hm
      · exact Nat.lt_succ_of_lt (hl m hm)
      · rw [mem_singleton.mp hm]
        exact Nat.lt_succ_self _
    have hdup : (∀ m ∈ s.pending, m < s.queue.mem.length) → s.pending.Nodup →
        (s.pending ++ [s.queue.mem.length]).Nodup := by
      intro hl hd
      refine nodup_append.mpr ⟨hd, by simp, fun m hm m' hm' => ?_⟩
      rw [mem_singleton.mp hm']
      exact Nat.ne_of_lt (hl m hm)
    cases h with
    | both t last rest hp hl hold hd hn ht hx hb =>
      obtain ⟨hnotify, htail, hnext, hback, -⟩ := arrived_behind data ht (hold t (by simp [hp]))
      exact .both _ t s.queue.mem.length (rest ++ [s.queue.mem.length]) (by simp [hp]) (by simp) (hnew _ hold)
        (hdup hold hd) (hnotify.trans hn) htail hnext hback
    | last t m rest hp htaken hold hd hn ht hb =>
      have hm : m < s.queue.mem.length := hold m (by simp [hp])
      have ht' : t < s.queue.mem.length := hold t mem_cons_self
      have hne : m ≠ t := fun heq => htaken (by simp [hp, heq])
      obtain ⟨hnotify, htail, -, -, hkeep⟩ := arrived_behind data ht ht'
      refine .last _ t m (rest ++ [s.queue.mem.length]) (by simp [hp]) ?_ (hnew (t :: s.pending) hold)
        (hdup (fun p hp => hold p (mem_cons_of_mem _ hp)) hd) (hnotify.trans hn) htail
        ((hkeep m hm hne).trans hb)
      simp [htaken, Nat.ne_of_lt ht']
    | astray w h =>
      obtain ⟨t, ht, hold⟩ := h.tail
      obtain ⟨hnotify, htail, -⟩ := arrived_behind data ht hold
      refine .astray _ w ⟨hnotify.trans h.notify, ?_, ?_, t, htail, ?_⟩
      · rw [length_arrived]
        exact Nat.lt_succ_of_lt h.old
      · have := h.first
        have := Nat.ne_of_gt h.old
        cases hp : s.pending <;> simp_all
      · rw [length_arrived]
        exact Nat.lt_succ_of_lt hold

theorem Circle.get (h : Circle s) (hf : s.Fifo .getnotify) (hs : s.step .getnotify = some s') : Circle s' := by
  cases hs
  cases h with
  | both t last rest hp hl hold hd hn ht hx hb =>
    obtain ⟨hnotify, htail, -, hlen, hkeep⟩ := getnotify_some hn
    have hpend : s.pending.tail = rest := by rw [hp]; rfl
    rw [hp] at hd hold
    have hd := nodup_cons.mp hd
    have hne : last ≠ t := fun heq => hd.1 (heq ▸ hl)
    have htail := (htail (by simp [hx])).trans ht
    rw [hpend]
    cases rest with
    | nil => cases hl
    | cons m rest =>
      by_cases hm : m = last
      · subst hm
        exact .last _ t m rest rfl hd.1 (hlen ▸ hold) hd.2 (hnotify.trans hx) htail ((hkeep m hne).trans hb)
      · refine .astray _ last ⟨hnotify.trans hx, ?_, ?_, t, htail, ?_⟩
        · exact hlen ▸ hold last (mem_cons_of_mem _ hl)
        · exact fun heq => hm (some.inj heq)
        · exact hlen ▸ hold t mem_cons_self
  | last t m rest hp htaken hold hd hn ht hb =>
    obtain ⟨hnotify, htail, -, hlen, -⟩ := getnotify_some hn
    have hpend : s.pending.tail = rest := by rw [hp]; rfl
    have hold := hold t mem_cons_self
    refine .astray _ t ⟨hnotify.trans hb, hlen ▸ hold, ?_, t, (htail (by simp [hb])).trans ht, hlen ▸ hold⟩
    dsimp only
    rw [hpend]
    exact fun heq => htaken (by rw [hp]; exact mem_cons_of_mem _ (mem_of_mem_head? heq))
  | astray w h =>
    rw [Waiting.Fifo, getnotify_fst, h.notify] at hf
    exact absurd hf.symm h.first

/-- A circle does not come to its end with the messages that wait. -/
theorem Circle.not_drain (rounds : ℕ) (h : Circle s) : drain rounds s.queue ≠ some s.pending := by
  induction rounds generalizing s with
  | zero => exact (some_ne_none _).symm
  | succ rounds ih =>
    intro hd
    obtain ⟨m, hm⟩ := ne_none_iff_exists'.mp h.ne_none
    rw [drain, getnotify_fst, hm] at hd
    obtain ⟨l, hl, hpend⟩ := map_eq_some_iff.mp hd
    have hf : s.Fifo .getnotify := by
      rw [Waiting.Fifo, getnotify_fst, hm, ← hpend]
      rfl
    refine ih (h.get hf rfl) ?_
    dsimp only
    rw [← hpend]
    exact hl

theorem Circle.not_right (h : Circle s) (ops : List NotifyOp) :
    ¬ (Along Waiting.step Waiting.Fifo s ops ∧ ∀ s', runs Waiting.step s ops = some s' → s'.Drains) := by
  induction ops generalizing s with
  | nil =>
    rintro ⟨-, hend⟩
    obtain ⟨rounds, hd⟩ := hend s rfl
    exact h.not_drain rounds hd
  | cons op ops ih =>
    rintro ⟨⟨hf, hrest⟩, hend⟩
    cases op with
    | event data => exact ih (h.event rfl) ⟨hrest _ rfl, fun s' hr => hend s' hr⟩
    | getnotify => exact ih (h.get hf rfl) ⟨hrest _ rfl, fun s' hr => hend s' hr⟩

/-! ### The queue -/

theorem Single.right_iff (h : Single s) (ops : List NotifyOp) :
    (Along Waiting.step Waiting.Fifo s ops ∧ ∀ s', runs Waiting.step s ops = some s' → s'.Drains) ↔
      Along Waiting.step Waiting.Alone s ops := by
  induction ops generalizing s with
  | nil =>
    refine ⟨fun _ => trivial, fun _ => ⟨trivial, fun s' hs => ?_⟩⟩
    rw [← some.inj hs]
    exact h.drains
  | cons op ops ih =>
    -- a step that keeps at most one message leaves the rest of the run
    have hrest : ∀ s₁, s.step op = some s₁ → Single s₁ → s.Alone op →
        ((Along Waiting.step Waiting.Fifo s (op :: ops) ∧
          ∀ s', runs Waiting.step s (op :: ops) = some s' → s'.Drains) ↔
        Along Waiting.step Waiting.Alone s (op :: ops)) := by
      intro s₁ hs h₁ ha
      rw [along_cons hs, along_cons hs, runs, hs, bind_some, and_assoc, ih h₁]
      exact and_congr ⟨fun _ => ha, fun _ => h.fifo op⟩ .rfl
    cases op with
    | getnotify => exact hrest _ rfl (h.get rfl).1 trivial
    | event data =>
      by_cases ha : s.Alone (.event data)
      · exact hrest _ rfl (h.event ha rfl) ha
      · refine iff_of_false (fun hright => ?_) (fun hall => ha hall.1)
        obtain ⟨hacc, hne⟩ := Classical.not_imp.mp ha
        cases h with
        | empty hp hn ht => exact hne hp
        | one m hp hold hn ht hx =>
          have hcircle := Single.second hp hold hn ht hacc rfl
          exact hcircle.not_right ops ⟨hright.1.2 _ rfl, fun s' hr => hright.2 s' hr⟩

/-- `anoubis_client_getnotify` returns the messages in the order in which they came, NULL if all of them were
    returned, and `anoubis_client_destroy` returns: in a run where no message arrives while another one waits, and
    in no other. -/
theorem getnotify_is_queue (ops : List NotifyOp) :
    (Along Waiting.step Waiting.Fifo .start ops ∧ ∀ s, runs Waiting.step .start ops = some s → s.Drains) ↔
      Along Waiting.step Waiting.Alone .start ops :=
  single_start.right_iff ops

/-- A notification of a policy change. -/
def policychange : Bytes := [0, 0, 0x40, 0x16] ++ List.replicate 12 0

/-- Of two messages the first one comes again. -/
theorem getnotify_twice :
    ¬ (Along Waiting.step Waiting.Fifo .start
        [.event policychange, .event policychange, .getnotify, .getnotify, .getnotify] ∧
      ∀ s, runs Waiting.step .start
        [.event policychange, .event policychange, .getnotify, .getnotify, .getnotify] = some s → s.Drains) := by
  refine fun h => absurd h.1 ?_
  decide +kernel

end Anoubis.Client

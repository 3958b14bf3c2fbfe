import Anoubis.Apn.Types
import Anoubis.Lib.Alloc

/-! Copies of rules (`apn_copy_one_rule`).

    Here rules are what they are in memory: every list node and every string has an address.

        rule ─┬─ scope
              ├─ app ── app ── …        each with a name and a subject, which may hold a string
              └─ body: hosts, ports, paths, applications, or a chain of rules

    A copy has memory of its own. It should have the same value; but the flags are lost, and all entries
    of an application list get the subject of the first one. -/

namespace Anoubis.Apn

open Anoubis.Lib List

/-! ### Rules in memory -/

/-- `struct apn_subject`; the key ID is a string. -/
inductive MemSubject where
  | none
  | uid (uid : ℕ)
  | key (keyid : Alloced Text)
  | uidSelf
  | keySelf
  deriving DecidableEq

/-- `struct apn_app`. -/
structure MemApp where
  name : Option (Alloced Text)
  subject : MemSubject
  deriving DecidableEq

/-- `struct apn_afiltspec`. -/
structure MemFilt where
  log : Log
  proto : Proto
  netaccess : NetAccess
  fromhost : List (Alloced Host)
  fromport : List (Alloced Port)
  tohost : List (Alloced Host)
  toport : List (Alloced Port)
  deriving DecidableEq

/-- The union of `struct apn_rule` for a rule inside a block. -/
inductive MemBody where
  | alfFilter (action : Action) (spec : MemFilt)
  | alfCapability (action : Action) (log : Log) (capability : Capability)
  | default (d : Default)
  | ctxRule (application : List (Alloced MemApp)) (type : CtxType)
  | sfsAccess (path : Option (Alloced Text)) (subject : MemSubject) (valid invalid unknown : Default)
  | sfsDefault (path : Option (Alloced Text)) (log : Log) (action : Action)
  | sbAccess (path : Option (Alloced Text)) (cs : MemSubject) (amask : ℕ) (log : Log) (action : Action)
  deriving DecidableEq

/-- `struct apn_rule` with some body. -/
structure MemRule (β : Type) where
  id : ℕ
  scope : Option (Alloced Scope)
  app : List (Alloced MemApp)
  flags : ℕ
  body : β
  deriving DecidableEq

/-- A rule inside a block. -/
abbrev MemLeaf := Alloced (MemRule MemBody)

/-- A rule of any type. -/
inductive MemAny where
  | leaf (r : MemLeaf)
  | block (kind : Kind) (r : Alloced (MemRule (List MemLeaf)))
  deriving DecidableEq

/-! ### The copy -/

/-- `strdup`. -/
def strdup (s : Alloced Text) : AllocM (Alloced Text) := newAlloced s.val

/-- `apn_copy_subject`. -/
def apnCopySubject : MemSubject → AllocM MemSubject
  | .none => pure .none
  | .uidSelf => pure .uidSelf
  | .keySelf => pure .keySelf
  | .uid u => pure (.uid u)
  | .key keyid => do
    let keyid ← strdup keyid
    pure (.key keyid)

/-- One round of `apn_copy_app`; `head` is the subject of `app`, the first entry. -/
def copyAppEntry (head : MemSubject) (hp : Alloced MemApp) : AllocM (Alloced MemApp) := do
  let addr ← malloc
  let subject ← apnCopySubject head
  let name ← copyOption strdup hp.val.name
  pure ⟨addr, ⟨name, subject⟩⟩

/-- `apn_copy_app`. -/
def apnCopyApp : List (Alloced MemApp) → AllocM (List (Alloced MemApp))
  | [] => pure []
  | app :: rest => copyList (copyAppEntry app.val.subject) (app :: rest)

/-- `apn_copy_hosts`. The copied `next` is overwritten in the next round, and is NULL in the last. -/
def apnCopyHosts (hosts : List (Alloced Host)) : AllocM (List (Alloced Host)) :=
  copyList (fun hp => newAlloced hp.val) hosts

/-- `apn_copy_ports`. -/
def apnCopyPorts (ports : List (Alloced Port)) : AllocM (List (Alloced Port)) :=
  copyList (fun hp => newAlloced hp.val) ports

/-- `apn_copy_afilt`. -/
def apnCopyAfilt (src : MemFilt) : AllocM MemFilt := do
  let fromhost ← apnCopyHosts src.fromhost
  let tohost ← apnCopyHosts src.tohost
  let fromport ← apnCopyPorts src.fromport
  let toport ← apnCopyPorts src.toport
  pure { src with fromhost := fromhost, tohost := tohost, fromport := fromport, toport := toport }

/-- The switch of `apn_copy_one_rule` for a rule inside a block. -/
def copyBody : MemBody → AllocM MemBody
  | .alfFilter action spec => do
    let spec ← apnCopyAfilt spec
    pure (.alfFilter action spec)
  | .alfCapability action log capability => pure (.alfCapability action log capability)
  | .default d => pure (.default d)
  | .ctxRule application type => do
    let application ← apnCopyApp application
    pure (.ctxRule application type)
  | .sfsDefault path log action => do
    let path ← copyOption strdup path
    pure (.sfsDefault path log action)
  | .sfsAccess path subject valid invalid unknown => do
    let path ← copyOption strdup path
    let subject ← apnCopySubject subject
    pure (.sfsAccess path subject valid invalid unknown)
  | .sbAccess path cs amask log action => do
    let path ← copyOption strdup path
    let cs ← apnCopySubject cs
    pure (.sbAccess path cs amask log action)

/-- What `apn_copy_one_rule` does for every type; the flags of the copy are 0. -/
def copyRule {β : Type} (body : β → AllocM β) (old : Alloced (MemRule β)) : AllocM (Alloced (MemRule β)) := do
  let addr ← malloc
  let scope ← copyOption (fun s => newAlloced s.val) old.val.scope
  let app ← apnCopyApp old.val.app
  let body ← body old.val.body
  pure ⟨addr, ⟨old.val.id, scope, app, 0, body⟩⟩

/-- `apn_copy_chain`. -/
def apnCopyChain (src : List MemLeaf) : AllocM (List MemLeaf) := copyList (copyRule copyBody) src

/-- `apn_copy_one_rule`. -/
def apnCopyOneRule : MemAny → AllocM MemAny
  | .leaf r => do
    let r ← copyRule copyBody r
    pure (.leaf r)
  | .block kind r => do
    let r ← copyRule apnCopyChain r
    pure (.block kind r)

/-! ### Values and addresses -/

/-- A rule without its addresses. -/
structure RuleValue (β : Type) where
  id : ℕ
  scope : Option Scope
  app : List App
  flags : ℕ
  body : β
  deriving DecidableEq

inductive AnyValue where
  | leaf (r : RuleValue Body)
  | block (kind : Kind) (r : RuleValue (List (RuleValue Body)))
  deriving DecidableEq

def MemSubject.value : MemSubject → Subject
  | .none => .none
  | .uid u => .uid u
  | .key keyid => .key keyid.val
  | .uidSelf => .uidSelf
  | .keySelf => .keySelf

def MemApp.value (a : MemApp) : App := ⟨a.name.map (·.val), a.subject.value⟩

def appsValue (apps : List (Alloced MemApp)) : List App := apps.map fun a => a.val.value

def MemFilt.value (f : MemFilt) : AfiltSpec :=
  ⟨f.log, f.proto, f.netaccess, f.fromhost.map (·.val), f.fromport.map (·.val), f.tohost.map (·.val),
    f.toport.map (·.val)⟩

def MemBody.value : MemBody → Body
  | .alfFilter action spec => .alfFilter action spec.value
  | .alfCapability action log capability => .alfCapability action log capability
  | .default d => .default d
  | .ctxRule application type => .ctxRule (appsValue application) type
  | .sfsAccess path subject valid invalid unknown =>
    .sfsAccess (path.map (·.val)) subject.value valid invalid unknown
  | .sfsDefault path log action => .sfsDefault (path.map (·.val)) log action
  | .sbAccess path cs amask log action => .sbAccess (path.map (·.val)) cs.value amask log action

def ruleValue {β γ : Type} (body : β → γ) (r : Alloced (MemRule β)) : RuleValue γ :=
  ⟨r.val.id, r.val.scope.map (·.val), appsValue r.val.app, r.val.flags, body r.val.body⟩

def MemLeaf.value (r : MemLeaf) : RuleValue Body := ruleValue MemBody.value r

def MemAny.value : MemAny → AnyValue
  | .leaf r => .leaf r.value
  | .block kind r => .block kind (ruleValue (fun chain => chain.map MemLeaf.value) r)

def stringAddrs (s : Option (Alloced Text)) : List ℕ := s.toList.map (·.addr)

def MemSubject.addrs : MemSubject → List ℕ
  | .key keyid => [keyid.addr]
  | _ => []

def appsAddrs (apps : List (Alloced MemApp)) : List ℕ :=
  apps.flatMap fun a => a.addr :: (stringAddrs a.val.name ++ a.val.subject.addrs)

def MemFilt.addrs (f : MemFilt) : List ℕ :=
  f.fromhost.map (·.addr) ++ f.fromport.map (·.addr) ++ f.tohost.map (·.addr) ++ f.toport.map (·.addr)

def MemBody.addrs : MemBody → List ℕ
  | .alfFilter _ spec => spec.addrs
  | .alfCapability _ _ _ => []
  | .default _ => []
  | .ctxRule application _ => appsAddrs application
  | .sfsAccess path subject _ _ _ => stringAddrs path ++ subject.addrs
  | .sfsDefault path _ _ => stringAddrs path
  | .sbAccess path cs _ _ _ => stringAddrs path ++ cs.addrs

def ruleAddrs {β : Type} (body : β → List ℕ) (r : Alloced (MemRule β)) : List ℕ :=
  r.addr :: (r.val.scope.toList.map (·.addr) ++ appsAddrs r.val.app ++ body r.val.body)

def MemLeaf.addrs (r : MemLeaf) : List ℕ := ruleAddrs MemBody.addrs r

/-- The addresses of the rule, its list nodes and its strings. -/
def MemAny.addrs : MemAny → List ℕ
  | .leaf r => r.addrs
  | .block _ r => ruleAddrs (fun chain => chain.flatMap MemLeaf.addrs) r

/-! ### What the code copies

    The value of the copy as a function of the value of the original. -/

/-- Every entry gets the subject of the first one. -/
def headSubjects : List App → List App
  | [] => []
  | a :: as => (a :: as).map fun b => { b with subject := a.subject }

def codeBody : Body → Body
  | .ctxRule application type => .ctxRule (headSubjects application) type
  | b => b

/-- The flags are lost. -/
def codeRule {β : Type} (body : β → β) (r : RuleValue β) : RuleValue β :=
  { r with app := headSubjects r.app, flags := 0, body := body r.body }

def codeAny : AnyValue → AnyValue
  | .leaf r => .leaf (codeRule codeBody r)
  | .block kind r => .block kind (codeRule (fun chain => chain.map (codeRule codeBody)) r)

variable {alloc : Alloc}

/-- Value and addresses of a copy. -/
def Copied {α β : Type} (alloc : Alloc) (value : α → β) (addrs : α → List ℕ) (v : β) (x : α) : Prop :=
  value x = v ∧ ∀ a ∈ addrs x, Issued alloc a

theorem ensures_strdup (s : Alloced Text) : Ensures alloc (strdup s) fun x => x.val = s.val ∧ Issued alloc x.addr :=
  (ensures_newAlloced s.val).mono fun _ h => ⟨h.2, h.1⟩

theorem ensures_string (s : Option (Alloced Text)) :
    Ensures alloc (copyOption strdup s) (Copied alloc (Option.map (·.val)) stringAddrs (s.map (·.val))) := by
  refine ensures_copyOption ?_ ?_
  · rintro rfl
    exact ⟨rfl, by simp [stringAddrs]⟩
  · rintro s rfl
    refine (ensures_strdup s).mono fun x hx => ⟨by rw [Option.map_some, hx.1, Option.map_some], ?_⟩
    simpa [stringAddrs] using hx.2

theorem ensures_apnCopySubject (s : MemSubject) :
    Ensures alloc (apnCopySubject s) (Copied alloc MemSubject.value MemSubject.addrs s.value) := by
  cases s with
  | key keyid =>
    refine (ensures_strdup keyid).bind fun x hx => .pure ⟨?_, ?_⟩
    · rw [MemSubject.value, MemSubject.value, hx.1]
    · simpa [MemSubject.addrs] using hx.2
  | none => exact .pure ⟨rfl, by simp [MemSubject.addrs]⟩
  | uid u => exact .pure ⟨rfl, by simp [MemSubject.addrs]⟩
  | uidSelf => exact .pure ⟨rfl, by simp [MemSubject.addrs]⟩
  | keySelf => exact .pure ⟨rfl, by simp [MemSubject.addrs]⟩

variable {α β γ : Type}

/-- A list whose elements are copied one by one. -/
theorem forall₂_copied {value : α → β} {addrs : α → List ℕ} {f : γ → β} {l : List γ} {l' : List α}
    (h : List.Forall₂ (fun x y => Copied alloc value addrs (f x) y) l l') :
    Copied alloc (List.map value) (List.flatMap addrs) (l.map f) l' := by
  induction h with
  | nil => exact ⟨rfl, by simp⟩
  | cons hxy _ ih =>
    refine ⟨by rw [map_cons, map_cons, hxy.1, ih.1], fun a ha => ?_⟩
    rw [flatMap_cons, mem_append] at ha
    exact ha.elim (hxy.2 a) (ih.2 a)

theorem ensures_apnCopyApp (apps : List (Alloced MemApp)) :
    Ensures alloc (apnCopyApp apps) (Copied alloc appsValue appsAddrs (headSubjects (appsValue apps))) := by
  cases apps with
  | nil => exact .pure ⟨rfl, by simp [appsAddrs]⟩
  | cons app rest =>
    have hentry : ∀ hp : Alloced MemApp, Ensures alloc (copyAppEntry app.val.subject hp)
        (Copied alloc (fun a => a.val.value) (fun a => a.addr :: (stringAddrs a.val.name ++ a.val.subject.addrs))
          { hp.val.value with subject := app.val.subject.value }) := by
      intro hp
      refine ensures_malloc.bind fun addr haddr => (ensures_apnCopySubject _).bind fun subject hsubj =>
        (ensures_string hp.val.name).bind fun name hname => .pure ⟨?_, ?_⟩
      · simp only [MemApp.value, hsubj.1, hname.1]
      · intro a ha
        rcases mem_cons.mp ha with rfl | ha
        · exact haddr
        · exact (mem_append.mp ha).elim (hname.2 a) (hsubj.2 a)
    refine (ensures_copyList hentry (app :: rest)).mono fun l' hl' => ?_
    have hcopied := forall₂_copied hl'
    refine ⟨hcopied.1.trans ?_, hcopied.2⟩
    have hhead : headSubjects (appsValue (app :: rest)) =
        (appsValue (app :: rest)).map fun b => { b with subject := app.val.subject.value } := rfl
    rw [hhead, appsValue, map_map]
    rfl

/-- Hosts and ports. -/
theorem ensures_nodes (l : List (Alloced α)) : Ensures alloc (copyList (fun hp : Alloced α => newAlloced hp.val) l)
      (Copied alloc (List.map (·.val)) (List.map (·.addr)) (l.map (·.val))) := by
  have hnode : ∀ hp : Alloced α, Ensures alloc (newAlloced hp.val)
      (Copied alloc (·.val) (fun x => [x.addr]) hp.val) := fun hp =>
    (ensures_newAlloced hp.val).mono fun x hx => ⟨hx.2, by simpa using hx.1⟩
  refine (ensures_copyList hnode l).mono fun l' hl' => ?_
  have hcopied := forall₂_copied hl'
  refine ⟨hcopied.1, fun a ha => hcopied.2 a ?_⟩
  obtain ⟨x, hx, rfl⟩ := mem_map.mp ha
  exact mem_flatMap.mpr ⟨x, hx, mem_singleton.mpr rfl⟩

theorem ensures_apnCopyAfilt (f : MemFilt) :
    Ensures alloc (apnCopyAfilt f) (Copied alloc MemFilt.value MemFilt.addrs f.value) := by
  refine (ensures_nodes f.fromhost).bind fun fromhost h1 => (ensures_nodes f.tohost).bind fun tohost h2 =>
    (ensures_nodes f.fromport).bind fun fromport h3 => (ensures_nodes f.toport).bind fun toport h4 =>
    .pure ⟨?_, ?_⟩
  · simp only [MemFilt.value, h1.1, h2.1, h3.1, h4.1]
  · intro a ha
    simp only [MemFilt.addrs, mem_append] at ha
    rcases ha with ((ha | ha) | ha) | ha
    · exact h1.2 a ha
    · exact h3.2 a ha
    · exact h2.2 a ha
    · exact h4.2 a ha

theorem ensures_copyBody (b : MemBody) :
    Ensures alloc (copyBody b) (Copied alloc MemBody.value MemBody.addrs (codeBody b.value)) := by
  cases b with
  | alfFilter action spec =>
    exact (ensures_apnCopyAfilt spec).bind fun s hs => .pure ⟨by rw [MemBody.value, hs.1]; rfl, hs.2⟩
  | alfCapability action log capability => exact .pure ⟨rfl, by simp [MemBody.addrs]⟩
  | default d => exact .pure ⟨rfl, by simp [MemBody.addrs]⟩
  | ctxRule application type =>
    exact (ensures_apnCopyApp application).bind fun as has => .pure ⟨by rw [MemBody.value, has.1]; rfl, has.2⟩
  | sfsDefault path log action =>
    exact (ensures_string path).bind fun p hp => .pure ⟨by rw [MemBody.value, hp.1]; rfl, hp.2⟩
  | sfsAccess path subject valid invalid unknown =>
    refine (ensures_string path).bind fun p hp => (ensures_apnCopySubject subject).bind fun s hs =>
      .pure ⟨by rw [MemBody.value, hp.1, hs.1]; rfl, fun a ha => ?_⟩
    exact (mem_append.mp ha).elim (hp.2 a) (hs.2 a)
  | sbAccess path cs amask log action =>
    refine (ensures_string path).bind fun p hp => (ensures_apnCopySubject cs).bind fun s hs =>
      .pure ⟨by rw [MemBody.value, hp.1, hs.1]; rfl, fun a ha => ?_⟩
    exact (mem_append.mp ha).elim (hp.2 a) (hs.2 a)

theorem ensures_copyRule {body : β → AllocM β} {value : β → γ} {addrs : β → List ℕ} {code : γ → γ}
    (hbody : ∀ b, Ensures alloc (body b) (Copied alloc value addrs (code (value b)))) (old : Alloced (MemRule β)) :
    Ensures alloc (copyRule body old)
      (Copied alloc (ruleValue value) (ruleAddrs addrs) (codeRule code (ruleValue value old))) := by
  have hscope : Ensures alloc (copyOption (fun s => newAlloced s.val) old.val.scope)
      (Copied alloc (Option.map (·.val)) (fun s => s.toList.map (·.addr)) (old.val.scope.map (·.val))) := by
    refine ensures_copyOption ?_ ?_
    · intro h
      exact ⟨by rw [h], by simp⟩
    · intro s hs
      refine (ensures_newAlloced s.val).mono fun x hx => ⟨?_, by simpa using hx.1⟩
      rw [hs, Option.map_some, Option.map_some, hx.2]
  refine ensures_malloc.bind fun addr haddr => hscope.bind fun scope hs =>
    (ensures_apnCopyApp old.val.app).bind fun app happ => (hbody old.val.body).bind fun b hb =>
    .pure ⟨?_, ?_⟩
  · simp only [ruleValue, codeRule, hs.1, happ.1, hb.1]
  · intro a ha
    simp only [ruleAddrs, mem_cons, mem_append] at ha
    rcases ha with rfl | (ha | ha) | ha
    · exact haddr
    · exact hs.2 a ha
    · exact happ.2 a ha
    · exact hb.2 a ha

/-- A copy has the value that the code gives it, and all its memory is from the allocator. -/
theorem ensures_apnCopyOneRule (r : MemAny) :
    Ensures alloc (apnCopyOneRule r) (Copied alloc MemAny.value MemAny.addrs (codeAny r.value)) := by
  cases r with
  | leaf r =>
    exact (ensures_copyRule ensures_copyBody r).bind fun c hc => .pure ⟨congrArg AnyValue.leaf hc.1, hc.2⟩
  | block kind r =>
    have hchain : ∀ chain : List MemLeaf, Ensures alloc (apnCopyChain chain)
        (Copied alloc (fun chain => chain.map MemLeaf.value) (fun chain => chain.flatMap MemLeaf.addrs)
          ((chain.map MemLeaf.value).map (codeRule codeBody))) := by
      intro chain
      refine (ensures_copyList (ensures_copyRule ensures_copyBody) chain).mono fun l' hl' => ?_
      rw [map_map]
      exact forall₂_copied hl'
    exact (ensures_copyRule hchain r).bind fun c hc => .pure ⟨congrArg (AnyValue.block kind) hc.1, hc.2⟩

/-! ### When the copy is faithful -/

/-- All entries have the subject of the first one. -/
def OneSubject (apps : List App) : Prop := ∀ h ∈ apps.head?, ∀ a ∈ apps, a.subject = h.subject

/-- No flags are set, and every application list of the rule has one subject. -/
def PlainRule (r : RuleValue Body) : Prop :=
  r.flags = 0 ∧ OneSubject r.app ∧ ∀ application type, r.body = .ctxRule application type →
    OneSubject application

def Plain : AnyValue → Prop
  | .leaf r => PlainRule r
  | .block _ r => r.flags = 0 ∧ OneSubject r.app ∧ ∀ s ∈ r.body, PlainRule s

theorem headSubjects_eq_iff (apps : List App) : headSubjects apps = apps ↔ OneSubject apps := by
  cases apps with
  | nil => simp [headSubjects, OneSubject]
  | cons a as =>
    have hid : (a :: as).map id = a :: as := map_id _
    rw [headSubjects, OneSubject]
    constructor
    · rintro h x hx b hb
      cases hx
      have hmap := map_inj_left.mp (h.trans hid.symm) b hb
      exact (congrArg App.subject hmap).symm
    · intro h
      refine (map_congr_left fun b hb => ?_).trans hid
      have hsubj := h a rfl b hb
      cases b
      simp_all

theorem codeBody_eq_iff (b : Body) : codeBody b = b ↔ ∀ application type, b = .ctxRule application type →
    OneSubject application := by
  cases b with
  | ctxRule application type =>
    simp only [codeBody, Body.ctxRule.injEq, and_true, headSubjects_eq_iff]
    constructor
    · rintro h as t ⟨rfl, -⟩
      exact h
    · exact fun h => h _ _ ⟨rfl, rfl⟩
  | _ => simp [codeBody]

theorem codeRule_eq_iff {code : β → β} (r : RuleValue β) :
    codeRule code r = r ↔ r.flags = 0 ∧ OneSubject r.app ∧ code r.body = r.body := by
  obtain ⟨id, scope, app, flags, body⟩ := r
  simp only [codeRule, RuleValue.mk.injEq, true_and, headSubjects_eq_iff]
  tauto

theorem map_eq_self_iff {f : α → α} {l : List α} : l.map f = l ↔ ∀ x ∈ l, f x = x := by
  have hid : l.map id = l := map_id _
  constructor
  · exact fun h => map_inj_left.mp (h.trans hid.symm)
  · exact fun h => (map_congr_left h).trans hid

theorem codeAny_eq_iff (v : AnyValue) : codeAny v = v ↔ Plain v := by
  have hleaf : ∀ r : RuleValue Body, codeRule codeBody r = r ↔ PlainRule r := by
    intro r
    rw [codeRule_eq_iff, codeBody_eq_iff, PlainRule]
  cases v with
  | leaf r => rw [codeAny, AnyValue.leaf.injEq, hleaf, Plain]
  | block kind r =>
    simp only [codeAny, AnyValue.block.injEq, true_and, codeRule_eq_iff, map_eq_self_iff, hleaf, Plain]

/-- If a copy is returned, it shares no memory with the original, and it is equal to it iff no flags are
    set and every application list has one subject. -/
theorem copy_faithful_iff {r c : MemAny} {n n' : ℕ} (hfresh : ∀ a ∈ r.addrs, ¬ Issued alloc a)
    (h : apnCopyOneRule r alloc n = some (c, n')) :
    c.value = r.value ∧ (∀ a ∈ c.addrs, a ∉ r.addrs) ↔ Plain r.value := by
  obtain ⟨hval, haddrs⟩ := ensures_apnCopyOneRule r n c n' h
  have hdisj : ∀ a ∈ c.addrs, a ∉ r.addrs := fun a ha hr => hfresh a hr (haddrs a ha)
  rw [and_iff_left hdisj, hval, codeAny_eq_iff]

/-! A sandbox block for two programs, the second one with the checksum of the user. -/

def twoApps (subject : MemSubject) : MemAny :=
  .block .sb ⟨1, ⟨5, none, [⟨2, ⟨some ⟨3, "/bin/a".toList⟩, .none⟩⟩,
    ⟨4, ⟨some ⟨5, "/bin/b".toList⟩, subject⟩⟩], 0, []⟩⟩

/-- Addresses from 100 on. -/
def fromHundred : Alloc := fun n => some (n + 100)

def twoAppsCopy : MemAny :=
  .block .sb ⟨100, ⟨5, none, [⟨101, ⟨some ⟨102, "/bin/a".toList⟩, .none⟩⟩,
    ⟨103, ⟨some ⟨104, "/bin/b".toList⟩, .none⟩⟩], 0, []⟩⟩

theorem twoApps_fresh (subject : MemSubject) (h : subject.addrs = []) :
    ∀ a ∈ (twoApps subject).addrs, ¬ Issued fromHundred a := by
  rintro a ha ⟨n, hn⟩
  have hlarge : a = n + 100 := (Option.some.inj hn).symm
  have hnone : MemSubject.none.addrs = [] := rfl
  simp [twoApps, MemAny.addrs, ruleAddrs, appsAddrs, stringAddrs, h, hnone] at ha
  omega

/-- Without a subject the copy is faithful. -/
theorem copy_faithful_iff_none :
    twoAppsCopy.value = (twoApps .none).value ∧ (∀ a ∈ twoAppsCopy.addrs, a ∉ (twoApps .none).addrs) ↔
      Plain (twoApps .none).value :=
  @copy_faithful_iff fromHundred (twoApps .none) twoAppsCopy 0 5 (twoApps_fresh .none rfl) rfl

/-- The subject of the second program is lost. -/
theorem second_subject_lost :
    (∀ a ∈ (twoApps .uidSelf).addrs, ¬ Issued fromHundred a) ∧
      apnCopyOneRule (twoApps .uidSelf) fromHundred 0 = some (twoAppsCopy, 5) ∧
      twoAppsCopy.value ≠ (twoApps .uidSelf).value :=
  ⟨twoApps_fresh .uidSelf rfl, rfl, by decide⟩

end Anoubis.Apn

import FloppyGuard.Ingress.Sessions
import FloppyGuard.Ingress.Validator

/-! Deleting an agent while its gateway polls: the delete guard, the payloads on their way, and what
the gateway is left with. -/
namespace FloppyGuard.Teardown

open Ingress DirectLink

/-- What a heartbeat says about the filter: `NONE`, or the hash of its text. -/
inductive Report (H : Type)
  | nothing
  | filter (h : H)
deriving DecidableEq

/-- The columns of an agent row the delete guard reads besides the mode. -/
structure Row (H : Type) where
  isDeleted : Bool
  ingressAppliedHash : Option (Report H)
  ingressError : Bool
  lastSeen : Option ℕ

inductive AppliedState
  | applied
  | pending
  | failed
  | unknown
  | offline
deriving DecidableEq

def agentOfflineAfterS : ℕ := 5 * 60

variable {H : Type}

/-- The desired hash is an error when the ruleset cannot be built. -/
def ingressAppliedState [DecidableEq H] (desired : Except BuildError (Report H)) (row : Row H)
    (now : ℕ) : AppliedState :=
  match desired with
  | .error _ => .failed
  | .ok desired =>
    match row.ingressAppliedHash with
    | none => if desired = .nothing then .applied else .unknown
    | some applied =>
      if row.ingressError then .failed
      else if applied = desired then .applied
      else if row.lastSeen.all fun seen => seen = 0 || now - seen > agentOfflineAfterS then .offline
      else .pending

def assertIngressTornDown (mode : IngressMode) (applied : Option (Report H))
    (state : AppliedState) :
    Except String Unit :=
  if mode = .restricted then
    .error
      ("Agent filtert noch („nur Freigaben“): erst auf „offen“ umstellen und warten, bis der " ++
       "Agent den Filter als gesetzt meldet")
  else match applied with
    | some (.filter _) =>
      if state ≠ .applied then
        .error
          ("Der Agent hat den Wechsel auf „offen“ noch nicht übernommen: warten, bis er den " ++
           "Filter als gesetzt meldet")
      else .ok ()
    | some .nothing | none => .ok ()

/-- What a gateway runs: the text of its filter and the ids of its direct links. -/
structure Gateway where
  filter : Option String
  links : List ℕ

/-- A `getConfig` under way, with what it has read; a key of the payload is left out when it cannot
be built. -/
structure ConfigCall where
  agentId : ℕ
  mode : IngressMode
  ifaces : Option (List String)
  aliases : Option (List DirectAlias)
  filter : Option (Except BuildError (Option Restore))
  links : Option (Option (List ℕ))

inductive Phase
  | reading
  | tornDown
  | unlinked
  | marked
  | cleared
  | dropping (ids : List ℕ)
  | returned
deriving DecidableEq

namespace Phase

/-- The check of the direct links has passed. -/
def passedLinks : Phase → Bool
  | reading | tornDown => false
  | unlinked | marked | cleared | dropping _ | returned => true

/-- The row is marked as deleted. -/
def hasMarked : Phase → Bool
  | reading | tornDown | unlinked => false
  | marked | cleared | dropping _ | returned => true

end Phase

/-- A `delete` under way: the row it has loaded, and what it reads for the guard. -/
structure DeleteCall (H : Type) where
  agentId : ℕ
  mode : IngressMode
  row : Row H
  ifaces : Option (List String)
  aliases : Option (List DirectAlias)
  phase : Phase

structure State (H : Type) where
  hub : Ingress.State
  row : ℕ → Row H
  gateway : ℕ → Gateway
  configs : ℕ → Option ConfigCall
  deletes : ℕ → Option (DeleteCall H)
  /-- Heartbeats on their way, in order. -/
  sent : ℕ → List (Report H × Bool)
  storing : ℕ → Option (Report H × Bool)

/-- Steps of the requests, one query each. -/
inductive Act
  | hub (a : Ingress.Act)
  | configLoad (i k : ℕ)
  | configIfaces (i : ℕ)
  | configAliases (i : ℕ)
  | configRules (i : ℕ)
  /-- `blocked`: the enabled rows that may not run, for which `active` of the payload has no answer
  -/
  | configLinks (i : ℕ) (fails : Bool) (blocked : List ℕ)
  | configReceived (i : ℕ)
  | configLost (i : ℕ)
  | report (k : ℕ) (error : Bool)
  | heartbeatLoad (k : ℕ)
  | heartbeatRefused (k : ℕ)
  | heartbeatStore (k now : ℕ)
  | deleteLoad (j k : ℕ)
  | deleteIfaces (j : ℕ)
  | deleteAliases (j : ℕ)
  | deleteRules (j now : ℕ)
  | deleteLinks (j : ℕ)
  | deleteRefused (j : ℕ)
  | deleteMark (j : ℕ)
  | deleteRuleRows (j : ℕ)
  | deleteLinkIds (j : ℕ)
  | deleteLinkRow (j : ℕ)
  | deleteReturn (j : ℕ)

namespace State

def setConfig (s : State H) (i : ℕ) (d : Option ConfigCall) : State H :=
  { s with configs := Function.update s.configs i d }

def setDelete (s : State H) (j : ℕ) (c : Option (DeleteCall H)) : State H :=
  { s with deletes := Function.update s.deletes j c }

def setRow (s : State H) (k : ℕ) (row : Row H) : State H :=
  { s with row := Function.update s.row k row }

def setGateway (s : State H) (k : ℕ) (g : Gateway) : State H :=
  { s with gateway := Function.update s.gateway k g }

def setHub (s : State H) (hub : Ingress.State) : State H := { s with hub := hub }

def setSent (s : State H) (k : ℕ) (rs : List (Report H × Bool)) : State H :=
  { s with sent := Function.update s.sent k rs }

def setStoring (s : State H) (k : ℕ) (r : Option (Report H × Bool)) : State H :=
  { s with storing := Function.update s.storing k r }

end State

/-- A rule request loads its agent under the lock; a deleted one is not found. -/
def Admitted (s : State H) : Ingress.Act → Prop
  | .begin k _ _ => (s.row k).isDeleted = false
  | _ => True

/-- The input of the filter from what has been read at different moments. -/
def filterOf (w : World) (k : ℕ) (mode : IngressMode) (ifaces : List String)
    (aliases : List DirectAlias) :
    FilterInput := ⟨mode, ifaceOf (w.wgInterface k), ifaces, aliases⟩

/-- The rows that are enabled in the payload. -/
def linkIds (links : List Link) (blocked : List ℕ) (k : ℕ) : List ℕ :=
  ((servingLinks links k).map Link.id).filter fun id => !blocked.contains id

/-- The rows `deleteForAgent` takes away one by one. -/
def sideIds (links : List Link) (k : ℕ) : List ℕ :=
  (links.filter fun l => l.agentAId == k || l.agentBId == k).map Link.id

/-- The `direct_links` key: left out when it fails, or when a restricted agent gets no filter. -/
def linksKey (d : ConfigCall) (fails : Bool) (blocked : List ℕ) (links : List Link) :
    Option (List ℕ) :=
  if fails || (d.mode = .restricted && d.filter.any fun f => !f.isOk) then none
  else some (linkIds links blocked d.agentId)

/-- A payload arrives; the gateway keeps what its absent keys stand for. -/
def Gateway.receive (g : Gateway) (d : ConfigCall) : Gateway where
  filter := match d.filter with
    | some (.ok built) => built.map Restore.text
    | some (.error _) | none => g.filter
  links := (d.links.bind id).getD g.links

def reportOf (hash : String → H) (g : Gateway) : Report H :=
  g.filter.elim .nothing fun text => .filter (hash text)

def desiredHash (hash : String → H) (built : Except BuildError (Option Restore)) :
    Except BuildError (Report H) :=
  built.map fun out => out.elim .nothing fun r => .filter (hash r.text)

inductive Step [DecidableEq H] (w : World) (hash : String → H) : State H → Act → State H → Prop
  | hub {s : State H} {a : Ingress.Act} {b : Ingress.State} : Admitted s a →
      SessionStep w s.hub a b →
    Step w hash s (.hub a) (s.setHub b)
  | configLoad {s : State H} {i k : ℕ} : s.configs i = none → (s.row k).isDeleted = false →
    Step w hash s (.configLoad i k)
      (s.setConfig i (some ⟨k, (s.hub.agents k).ingressMode, none, none, none, none⟩))
  | configIfaces {s : State H} {i : ℕ} {d : ConfigCall} : s.configs i = some d → d.ifaces = none →
    Step w hash s (.configIfaces i)
      (s.setConfig i (some { d with ifaces := some (ifacesFor s.hub.links.rows d.agentId) }))
  | configAliases {s : State H} {i : ℕ} {d : ConfigCall} : s.configs i = some d →
      d.ifaces.isSome = true →
    d.aliases = none → Step w hash s (.configAliases i) (s.setConfig i
      (some { d with aliases := some (ingressAliasesFor w.hubAddress s.hub.links.rows d.agentId) }))
  | configRules {s : State H} {i : ℕ} {d : ConfigCall} {ifaces : List String}
      {aliases : List DirectAlias} :
    s.configs i = some d → d.ifaces = some ifaces → d.aliases = some aliases → d.filter = none →
    Step w hash s (.configRules i) (s.setConfig i (some { d with filter := some (buildIngressRestore
      (filterOf w d.agentId d.mode ifaces aliases) (s.hub.agents d.agentId).rules) }))
  | configLinks {s : State H} {i : ℕ} {d : ConfigCall} {fails : Bool} {blocked : List ℕ} : s.configs
      i = some d →
    d.filter.isSome = true → d.links = none → Step w hash s (.configLinks i fails blocked)
      (s.setConfig i (some { d with links := some (linksKey d fails blocked s.hub.links.rows) }))
  | configReceived {s : State H} {i : ℕ} {d : ConfigCall} : s.configs i = some d →
      d.links.isSome = true →
    Step w hash s (.configReceived i)
      ((s.setConfig i none).setGateway d.agentId ((s.gateway d.agentId).receive d))
  | configLost {s : State H} {i : ℕ} : Step w hash s (.configLost i) (s.setConfig i none)
  | report {s : State H} {k : ℕ} {error : Bool} : Step w hash s (.report k error)
      (s.setSent k (s.sent k ++ [(reportOf hash (s.gateway k), error)]))
  | heartbeatLoad {s : State H} {k : ℕ} {r : Report H × Bool} {rest : List (Report H × Bool)} :
    s.sent k = r :: rest → s.storing k = none → (s.row k).isDeleted = false →
    Step w hash s (.heartbeatLoad k) ((s.setSent k rest).setStoring k (some r))
  | heartbeatRefused {s : State H} {k : ℕ} {r : Report H × Bool} {rest : List (Report H × Bool)} :
    s.sent k = r :: rest → (s.row k).isDeleted = true →
      Step w hash s (.heartbeatRefused k) (s.setSent k rest)
  | heartbeatStore {s : State H} {k now : ℕ} {r : Report H × Bool} : s.storing k = some r →
    s.hub.locked k = none → Step w hash s (.heartbeatStore k now) ((s.setStoring k none).setRow k
      { s.row k with ingressAppliedHash := some r.1, ingressError := r.2, lastSeen := some now })
  | deleteLoad {s : State H} {j k : ℕ} : s.deletes j = none → (s.row k).isDeleted = false →
    Step w hash s (.deleteLoad j k)
      (s.setDelete j (some ⟨k, (s.hub.agents k).ingressMode, s.row k, none, none, .reading⟩))
  | deleteIfaces {s : State H} {j : ℕ} {c : DeleteCall H} : s.deletes j = some c →
      c.phase = .reading →
    c.ifaces = none → Step w hash s (.deleteIfaces j)
      (s.setDelete j (some { c with ifaces := some (ifacesFor s.hub.links.rows c.agentId) }))
  | deleteAliases {s : State H} {j : ℕ} {c : DeleteCall H} : s.deletes j = some c →
      c.phase = .reading →
    c.ifaces.isSome = true → c.aliases = none → Step w hash s (.deleteAliases j) (s.setDelete j
      (some { c with aliases := some (ingressAliasesFor w.hubAddress s.hub.links.rows c.agentId) }))
  | deleteRules {s : State H} {j now : ℕ} {c : DeleteCall H} {ifaces : List String}
      {aliases : List DirectAlias} :
    s.deletes j = some c → c.phase = .reading → c.ifaces = some ifaces → c.aliases = some aliases →
    assertIngressTornDown c.mode c.row.ingressAppliedHash
      (ingressAppliedState (desiredHash hash (buildIngressRestore
      (filterOf w c.agentId c.mode ifaces aliases) (s.hub.agents c.agentId).rules)) c.row now) =
        .ok () →
    Step w hash s (.deleteRules j now) (s.setDelete j (some { c with phase := .tornDown }))
  | deleteLinks {s : State H} {j : ℕ} {c : DeleteCall H} : s.deletes j = some c →
      c.phase = .tornDown →
    ifacesFor s.hub.links.rows c.agentId = [] →
    Step w hash s (.deleteLinks j) (s.setDelete j (some { c with phase := .unlinked }))
  | deleteRefused {s : State H} {j : ℕ} {c : DeleteCall H} : s.deletes j = some c →
    c.phase = .reading ∨ c.phase = .tornDown → Step w hash s (.deleteRefused j) (s.setDelete j none)
  -- the update of the row waits for its lock
  | deleteMark {s : State H} {j : ℕ} {c : DeleteCall H} : s.deletes j = some c →
      c.phase = .unlinked →
    s.hub.locked c.agentId = none → Step w hash s (.deleteMark j)
      ((s.setDelete j (some { c with phase := .marked })).setRow c.agentId
        { s.row c.agentId with isDeleted := true })
  | deleteRuleRows {s : State H} {j : ℕ} {c : DeleteCall H} {b : Ingress.Agent} :
      s.deletes j = some c →
    c.phase = .marked → b.rules = [] → b.ingressMode = (s.hub.agents c.agentId).ingressMode →
    Step w hash s (.deleteRuleRows j)
      ((s.setDelete j (some { c with phase := .cleared })).setHub (s.hub.setAgent c.agentId b))
  | deleteLinkIds {s : State H} {j : ℕ} {c : DeleteCall H} : s.deletes j = some c →
      c.phase = .cleared →
    Step w hash s (.deleteLinkIds j)
      (s.setDelete j (some { c with phase := .dropping (sideIds s.hub.links.rows c.agentId) }))
  | deleteLinkRow {s : State H} {j id : ℕ} {ids : List ℕ} {c : DeleteCall H} :
      s.deletes j = some c →
    c.phase = .dropping (id :: ids) → Step w hash s (.deleteLinkRow j)
      ((s.setDelete j (some { c with phase := .dropping ids })).setHub
        (s.hub.setLinks (s.hub.links.delete id)))
  | deleteReturn {s : State H} {j : ℕ} {c : DeleteCall H} : s.deletes j = some c →
      c.phase = .dropping [] →
    Step w hash s (.deleteReturn j) (s.setDelete j (some { c with phase := .returned }))

/-! What must not be left behind. -/

/-- A chain that drops something. -/
def restricts (text : String) : Bool :=
  (readChain text).any fun readings => readings.any fun rd => rd.target = some .drop

/-- A link the gateway runs, or that a `getConfig` under way is about to hand it. -/
def Holds (s : State H) (k id : ℕ) : Prop :=
  id ∈ (s.gateway k).links ∨
    ∃ i d ids, s.configs i = some d ∧ d.agentId = k ∧ d.links = some (some ids) ∧ id ∈ ids

/-- The direct links can still reach the gateway: the row is not marked, or a `getConfig` has yet to
read them. -/
def Exposed (s : State H) (c : DeleteCall H) : Prop :=
  c.phase.hasMarked = false ∨ ∃ i d, s.configs i = some d ∧ d.agentId = c.agentId ∧ d.links = none

/-- The reports are up to date when the row is read: a dropping filter that the gateway still runs
is the one it has reported, and no payload of a restricted row is on its way. -/
def Reported (hash : String → H) (s : State H) (k : ℕ) : Prop :=
  (∀ text ∈ (s.gateway k).filter, restricts text = true →
    (s.row k).ingressAppliedHash = some (.filter (hash text))) ∧
  ∀ i d, s.configs i = some d → d.agentId = k → d.mode = .open_

/-- Nothing changes behind a delete, and what it reads is up to date. -/
def Steady (hash : String → H) (s : State H) : Act → Prop
  | .hub (.commit k) => ∀ p, s.hub.locked k = some p → p.next.ingressMode = .restricted →
    ∀ j c, s.deletes j = some c → c.agentId = k → c.mode = .open_ → c.phase.hasMarked = true
  | .hub (.writeLink i) => ∀ o, s.hub.sessions i = some o →
    ∀ j c, s.deletes j = some c → c.phase.passedLinks = true → Exposed s c →
      servingLinks (o.write.apply s.hub.links).rows c.agentId = []
  | .deleteLoad _ k => (s.hub.agents k).ingressMode = .restricted ∨ Reported hash s k
  | .deleteLinks j => ∀ c, s.deletes j = some c →
    servingLinks s.hub.links.rows c.agentId = [] → ∀ id, ¬ Holds s c.agentId id
  | _ => True

variable {w : World} {hash : String → H} {s t : State H} {a : Act} {xs : List Act} {j k : ℕ}
  {c : DeleteCall H}
  {d : ConfigCall} {inp : FilterInput} {rules : List Rule} {out : Restore}

/-! The chains of an open agent drop nothing. -/

theorem restricts_open (h : buildIngressRestore inp rules = .ok (some out))
    (hm : inp.ingressMode = .open_) :
    restricts out.text = false := by
  obtain ⟨hb, rfl⟩ := buildIngressRestore_some h
  have htarget : inp.target = .return_ := by simp [FilterInput.target, hm]
  have hreturn : ∀ rd ∈ denotedChain inp rules, rd.target = some .return_ := by
    intro rd hrd
    simp only [denotedChain, hm, reduceCtorEq, if_false, List.append_nil, List.mem_cons,
      List.mem_flatMap] at hrd
    rcases hrd with rfl | ⟨r, -, hrd⟩
    · rw [htarget]
      rfl
    · simp only [denotedRule, List.mem_flatMap, List.mem_append, List.mem_map] at hrd
      obtain ⟨src, -, dst, -, p, -, ⟨i, -, rfl⟩ | ⟨al, -, rfl⟩⟩ :=
        hrd <;> exact congrArg some htarget
  rw [restricts, readChain_restoreOf hb, Option.any_some, List.any_eq_false]
  intro rd hrd
  rw [hreturn rd hrd]
  decide

/-- What the guard has established when it lets a delete go on. -/
theorem tornDown_open [DecidableEq H] {mode : IngressMode} {row : Row H}
    {desired : Except BuildError (Report H)} {now : ℕ}
    (h : assertIngressTornDown mode row.ingressAppliedHash (ingressAppliedState desired row now) =
      .ok ()) :
    mode = .open_ ∧ ∀ x, row.ingressAppliedHash = some (.filter x) → desired = .ok (.filter x) := by
  unfold assertIngressTornDown at h
  split at h
  · cases h
  · rename_i hmode
    have hopen : mode = .open_ := by
      cases mode with
      | open_ => rfl
      | restricted => exact absurd rfl hmode
    refine ⟨hopen, ?_⟩
    intro x hx
    rw [hx] at h
    dsimp only at h
    split at h
    · cases h
    · rename_i hstate
      rw [not_not] at hstate
      unfold ingressAppliedState at hstate
      rw [hx] at hstate
      split at hstate
      · cases hstate
      · dsimp only at hstate
        split at hstate
        · cases hstate
        · split at hstate
          · rename_i he
            rw [← he]
          · split at hstate <;> cases hstate

theorem ifacesFor_eq_nil {links : List Link} :
    ifacesFor links k = [] ↔ servingLinks links k = [] := by
  simp [ifacesFor]

/-! The invariant. -/

/-- A payload of an open row carries no dropping filter. -/
def Harmless (d : ConfigCall) : Prop :=
  d.mode = .open_ → ∀ r, d.filter = some (.ok (some r)) → restricts r.text = false

theorem Harmless.of_eq {d' : ConfigCall} (h : Harmless d) (hmode : d'.mode = d.mode)
    (hfilter : d'.filter = d.filter) :
    Harmless d' := fun hm r hr => h (hmode ▸ hm) r (hfilter ▸ hr)

/-- What holds of a delete under way that has read an open row. -/
structure Sound (hash : String → H) (s : State H) (c : DeleteCall H) : Prop where
  opened : c.phase ≠ .reading → c.mode = .open_
  mode : c.mode = .open_ → c.phase.hasMarked = false → (s.hub.agents c.agentId).ingressMode = .open_
  configs : c.mode = .open_ → ∀ i d, s.configs i = some d → d.agentId = c.agentId → d.mode = .open_
  reported : c.mode = .open_ → ∀ text ∈ (s.gateway c.agentId).filter, restricts text = true →
    c.phase = .reading ∧ c.row.ingressAppliedHash = some (.filter (hash text))
  links : c.phase.passedLinks = true → ∀ id, ¬ Holds s c.agentId id
  serving : c.phase.passedLinks = true → Exposed s c → servingLinks s.hub.links.rows c.agentId = []
  deleted : c.phase.hasMarked = true → (s.row c.agentId).isDeleted = true

structure Inv (hash : String → H) (s : State H) : Prop where
  deletes : ∀ j c, s.deletes j = some c → Sound hash s c
  configs : ∀ i d, s.configs i = some d → Harmless d

theorem configs_setConfig {i i' : ℕ} {o : Option ConfigCall} {e : ConfigCall}
    (h : (s.setConfig i o).configs i' = some e) :
    (i' = i ∧ o = some e) ∨ s.configs i' = some e := by
  change Function.update s.configs i o i' = some e at h
  rcases eq_or_ne i' i with rfl | hne
  · rw [Function.update_self] at h
    exact Or.inl ⟨rfl, h⟩
  · rw [Function.update_of_ne hne] at h
    exact Or.inr h

theorem deletes_setDelete {j' : ℕ} {o : Option (DeleteCall H)} {e : DeleteCall H}
    (h : (s.setDelete j o).deletes j' = some e) :
    (j' = j ∧ o = some e) ∨ s.deletes j' = some e := by
  change Function.update s.deletes j o j' = some e at h
  rcases eq_or_ne j' j with rfl | hne
  · rw [Function.update_self] at h
    exact Or.inl ⟨rfl, h⟩
  · rw [Function.update_of_ne hne] at h
    exact Or.inr h

/-- A step that leaves the calls, the gateways, the modes, the links and the deleted rows alone. -/
theorem Sound.same (h : Sound hash s c) (hhub : t.hub = s.hub) (hgateway : t.gateway = s.gateway)
    (hconfigs : t.configs = s.configs)
    (hrow : (s.row c.agentId).isDeleted = true → (t.row c.agentId).isDeleted = true) :
    Sound hash t c where
  opened := h.opened
  mode := by rw [hhub]; exact h.mode
  configs := by rw [hconfigs]; exact h.configs
  reported := by rw [hgateway]; exact h.reported
  links := by simpa only [Holds, hgateway, hconfigs] using h.links
  serving := by simpa only [Exposed, hhub, hconfigs] using h.serving
  deleted := fun hm => hrow (h.deleted hm)

/-- A step of a rule or link request. -/
theorem Sound.hub {b : Ingress.State} (h : Sound hash s c)
    (hmode : c.mode = .open_ → c.phase.hasMarked = false →
      (b.agents c.agentId).ingressMode = .open_)
    (hlinks : c.phase.passedLinks = true → Exposed s c → servingLinks b.links.rows c.agentId = []) :
    Sound hash (s.setHub b) c where
  opened := h.opened
  mode := hmode
  configs := h.configs
  reported := h.reported
  links := h.links
  serving := hlinks
  deleted := h.deleted

/-- A `getConfig` reads something that is not its links. -/
theorem Sound.read {i : ℕ} {d' : ConfigCall} (h : Sound hash s c) (hd : s.configs i = some d)
    (hagent : d'.agentId = d.agentId) (hmode : d'.mode = d.mode) (hlinks : d'.links = d.links) :
    Sound hash (s.setConfig i (some d')) c := by
  have hback : ∀ i' e, (s.setConfig i (some d')).configs i' = some e →
    ∃ e', s.configs i' = some e' ∧
      e.agentId = e'.agentId ∧ e.mode = e'.mode ∧ e.links = e'.links := by
    intro i' e he
    rcases configs_setConfig he with ⟨rfl, ho⟩ | he
    · obtain rfl := Option.some.inj ho
      exact ⟨d, hd, hagent, hmode, hlinks⟩
    · exact ⟨e, he, rfl, rfl, rfl⟩
  refine ⟨h.opened, h.mode, ?_, h.reported, ?_, ?_, h.deleted⟩
  · intro ho i' e he hk
    obtain ⟨e', he', h1, h2, -⟩ := hback i' e he
    exact h2.trans (h.configs ho i' e' he' (h1 ▸ hk))
  · rintro hp id (hid | ⟨i', e, ids, he, hk, hl, hid⟩)
    · exact h.links hp id (Or.inl hid)
    · obtain ⟨e', he', h1, -, h3⟩ := hback i' e he
      exact h.links hp id (Or.inr ⟨i', e', ids, he', h1 ▸ hk, h3 ▸ hl, hid⟩)
  · rintro hp (hm | ⟨i', e, he, hk, hl⟩)
    · exact h.serving hp (Or.inl hm)
    · obtain ⟨e', he', h1, -, h3⟩ := hback i' e he
      exact h.serving hp (Or.inr ⟨i', e', he', h1 ▸ hk, h3 ▸ hl⟩)

/-- A new `getConfig` of a row that is not deleted. -/
theorem Sound.load {i : ℕ} (h : Sound hash s c) (hk : (s.row k).isDeleted = false) :
    Sound hash (s.setConfig i (some ⟨k, (s.hub.agents k).ingressMode, none, none, none, none⟩))
      c := by
  have hnew : ∀ i' e,
    (s.setConfig i (some ⟨k, (s.hub.agents k).ingressMode, none, none, none, none⟩)).configs i' =
      some e → s.configs i' = some e ∨
        e = ⟨k, (s.hub.agents k).ingressMode, none, none, none, none⟩ := by
    intro i' e he
    rcases configs_setConfig he with ⟨-, ho⟩ | he
    · exact Or.inr (Option.some.inj ho).symm
    · exact Or.inl he
  -- an agent that still answers has not been marked
  have hmarked : k = c.agentId → c.phase.hasMarked = false := by
    rintro rfl
    by_contra hm
    rw [h.deleted (eq_true_of_ne_false hm)] at hk
    cases hk
  refine ⟨h.opened, h.mode, ?_, h.reported, ?_, ?_, h.deleted⟩
  · intro ho i' e he hke
    rcases hnew i' e he with he | rfl
    · exact h.configs ho i' e he hke
    · subst hke
      exact h.mode ho (hmarked rfl)
  · rintro hp id (hid | ⟨i', e, ids, he, hke, hl, hid⟩)
    · exact h.links hp id (Or.inl hid)
    · rcases hnew i' e he with he | rfl
      · exact h.links hp id (Or.inr ⟨i', e, ids, he, hke, hl, hid⟩)
      · cases hl
  · rintro hp (hm | ⟨i', e, he, hke, hl⟩)
    · exact h.serving hp (Or.inl hm)
    · rcases hnew i' e he with he | rfl
      · exact h.serving hp (Or.inr ⟨i', e, he, hke, hl⟩)
      · exact h.serving hp (Or.inl (hmarked hke))

/-- A `getConfig` reads its links: none when a delete has found none. -/
theorem Sound.readLinks {i : ℕ} {fails : Bool} {blocked : List ℕ} (h : Sound hash s c)
    (hd : s.configs i = some d)
    (hnone : d.links = none) :
    Sound hash
      (s.setConfig i (some { d with links := some (linksKey d fails blocked s.hub.links.rows) }))
        c := by
  refine ⟨h.opened, h.mode, ?_, h.reported, ?_, ?_, h.deleted⟩
  · intro ho i' e he hk
    rcases configs_setConfig he with ⟨rfl, ho'⟩ | he
    · obtain rfl := Option.some.inj ho'
      exact h.configs ho i' d hd hk
    · exact h.configs ho i' e he hk
  · rintro hp id (hid | ⟨i', e, ids, he, hk, hl, hid⟩)
    · exact h.links hp id (Or.inl hid)
    · rcases configs_setConfig he with ⟨rfl, ho'⟩ | he
      · obtain rfl := Option.some.inj ho'
        have hserving := h.serving hp (Or.inr ⟨i', d, hd, hk, hnone⟩)
        have hids : ids = linkIds s.hub.links.rows blocked d.agentId := by
          have hl : linksKey d fails blocked s.hub.links.rows = some ids := Option.some.inj hl
          unfold linksKey at hl
          split at hl
          · cases hl
          · exact (Option.some.inj hl).symm
        have hk : d.agentId = c.agentId := hk
        rw [hids, linkIds, hk, hserving] at hid
        cases hid
      · exact h.links hp id (Or.inr ⟨i', e, ids, he, hk, hl, hid⟩)
  · rintro hp (hm | ⟨i', e, he, hk, hl⟩)
    · exact h.serving hp (Or.inl hm)
    · rcases configs_setConfig he with ⟨rfl, ho'⟩ | he
      · obtain rfl := Option.some.inj ho'
        cases hl
      · exact h.serving hp (Or.inr ⟨i', e, he, hk, hl⟩)

/-- A `getConfig` ends without an answer. -/
theorem Sound.lost {i : ℕ} (h : Sound hash s c) : Sound hash (s.setConfig i none) c := by
  have hback : ∀ i' e, (s.setConfig i none).configs i' = some e → s.configs i' = some e := by
    intro i' e he
    rcases configs_setConfig he with ⟨-, ho⟩ | he
    · cases ho
    · exact he
  refine ⟨h.opened, h.mode, fun ho i' e he => h.configs ho i' e (hback i' e he), h.reported, ?_, ?_,
    h.deleted⟩
  · rintro hp id (hid | ⟨i', e, ids, he, hk, hl, hid⟩)
    · exact h.links hp id (Or.inl hid)
    · exact h.links hp id (Or.inr ⟨i', e, ids, hback i' e he, hk, hl, hid⟩)
  · rintro hp (hm | ⟨i', e, he, hk, hl⟩)
    · exact h.serving hp (Or.inl hm)
    · exact h.serving hp (Or.inr ⟨i', e, hback i' e he, hk, hl⟩)

theorem filter_receive {g : Gateway} {text : String} (h : text ∈ (g.receive d).filter) :
    text ∈ g.filter ∨ ∃ r, d.filter = some (.ok (some r)) ∧ text = r.text := by
  unfold Gateway.receive at h
  dsimp only at h
  split at h
  · rename_i built hb
    cases built with
    | none => cases h
    | some r => exact Or.inr ⟨r, hb, (Option.some.inj h).symm⟩
  · exact Or.inl h
  · exact Or.inl h

theorem links_receive {g : Gateway} {id : ℕ} (h : id ∈ (g.receive d).links) :
    id ∈ g.links ∨ ∃ ids, d.links = some (some ids) ∧ id ∈ ids := by
  unfold Gateway.receive at h
  cases hl : d.links with
  | none => exact Or.inl (by simpa [hl] using h)
  | some key =>
    cases key with
    | none => exact Or.inl (by simpa [hl] using h)
    | some ids => exact Or.inr ⟨ids, rfl, by simpa [hl] using h⟩

/-- A payload arrives at its gateway. -/
theorem Sound.received {i : ℕ} (h : Sound hash s c) (hd : s.configs i = some d)
    (hharmless : Harmless d) :
    Sound hash ((s.setConfig i none).setGateway d.agentId ((s.gateway d.agentId).receive d)) c := by
  have hlost : Sound hash (s.setConfig i none) c := h.lost
  rcases eq_or_ne c.agentId d.agentId with hk | hk
  · have hg : ((s.setConfig i none).setGateway d.agentId ((s.gateway d.agentId).receive d)).gateway
      c.agentId =
        (s.gateway c.agentId).receive d := by
      rw [State.setGateway, hk]
      exact Function.update_self ..
    refine ⟨hlost.opened, hlost.mode, hlost.configs, ?_, ?_, hlost.serving, hlost.deleted⟩
    · intro ho text htext hr
      rw [hg] at htext
      rcases filter_receive htext with htext | ⟨r, hf, rfl⟩
      · exact h.reported ho text htext hr
      · rw [hharmless (h.configs ho i d hd hk.symm) r hf] at hr
        cases hr
    · rintro hp id (hid | hid)
      · rw [hg] at hid
        rcases links_receive hid with hid | ⟨ids, hl, hid⟩
        · exact h.links hp id (Or.inl hid)
        · exact h.links hp id (Or.inr ⟨i, d, ids, hd, hk.symm, hl, hid⟩)
      · exact hlost.links hp id (Or.inr hid)
  · have hg : ((s.setConfig i none).setGateway d.agentId ((s.gateway d.agentId).receive d)).gateway
      c.agentId =
        s.gateway c.agentId := Function.update_of_ne hk ..
    refine ⟨hlost.opened, hlost.mode, hlost.configs, ?_, ?_, hlost.serving, hlost.deleted⟩
    · rw [hg]
      exact hlost.reported
    · intro hp id
      rw [Holds, hg]
      exact hlost.links hp id

/-! The delete itself. -/

/-- The delete loads the row. -/
theorem sound_load (hok : (s.hub.agents k).ingressMode = .restricted ∨ Reported hash s k) :
    Sound hash s ⟨k, (s.hub.agents k).ingressMode, s.row k, none, none, .reading⟩ where
  opened := fun h => absurd rfl h
  mode := fun ho _ => ho
  configs := by
    intro ho i d hd hk
    rcases hok with hr | hok
    · exact absurd (ho.symm.trans hr) (by decide)
    · exact hok.2 i d hd hk
  reported := by
    intro ho text htext hr
    rcases hok with hm | hok
    · exact absurd (ho.symm.trans hm) (by decide)
    · exact ⟨rfl, hok.1 text htext hr⟩
  links := nofun
  serving := nofun
  deleted := nofun

/-- Reads for the guard leave the facts about the row as they are. -/
theorem Sound.guardRead (h : Sound hash s c) (ifaces : Option (List String))
    (aliases : Option (List DirectAlias)) :
    Sound hash s { c with ifaces := ifaces, aliases := aliases } :=
  ⟨h.opened, h.mode, h.configs, h.reported, h.links, h.serving, h.deleted⟩

/-- The guard has compared the hashes: what the gateway has reported is a chain of an open agent. -/
theorem Sound.tornDown [DecidableEq H] {now : ℕ} (hinj : Function.Injective hash)
    (h : Sound hash s c)
    (hm : inp.ingressMode = c.mode) (hok : assertIngressTornDown c.mode c.row.ingressAppliedHash
      (ingressAppliedState (desiredHash hash (buildIngressRestore inp rules)) c.row now) = .ok ())
    (hphase : c.phase = .reading) : Sound hash s { c with phase := .tornDown } := by
  obtain ⟨hopen, hdesired⟩ := tornDown_open hok
  refine ⟨fun _ => hopen, fun _ _ => h.mode hopen (by rw [hphase]; rfl), h.configs, ?_, nofun,
    nofun, nofun⟩
  intro _ text htext hr
  have happlied := (h.reported hopen text htext hr).2
  have hbuilt := hdesired _ happlied
  cases hb : buildIngressRestore inp rules with
  | error e => simp [hb, desiredHash, Except.map] at hbuilt
  | ok built =>
    cases built with
    | none => simp [hb, desiredHash, Except.map] at hbuilt
    | some r =>
      simp only [hb, desiredHash, Except.map, Option.elim, Except.ok.injEq, Report.filter.injEq]
        at hbuilt
      rw [← hinj hbuilt, restricts_open hb (hm.trans hopen)] at hr
      cases hr

/-- The delete finds no enabled link. -/
theorem Sound.unlinked (h : Sound hash s c) (hphase : c.phase = .tornDown)
    (hserving : servingLinks s.hub.links.rows c.agentId = []) (hok : ∀ id, ¬ Holds s c.agentId id) :
    Sound hash s { c with phase := .unlinked } where
  opened := fun _ => h.opened (by rw [hphase]; nofun)
  mode := fun ho _ => h.mode ho (by rw [hphase]; rfl)
  configs := h.configs
  reported := by
    intro ho text htext hr
    have hreading := (h.reported ho text htext hr).1
    rw [hphase] at hreading
    cases hreading
  links := fun _ => hok
  serving := fun _ _ => hserving
  deleted := nofun

/-- The row is marked, and the rest of the delete only cleans up. -/
theorem Sound.later (h : Sound hash s c) {phase : Phase} (hpassed : c.phase.passedLinks = true)
    (hmarked : phase.hasMarked = true) (hrow : (s.row c.agentId).isDeleted = true) :
    Sound hash s { c with phase := phase } where
  opened := fun _ => h.opened (by rintro hr; rw [hr] at hpassed; cases hpassed)
  mode := fun _ hm => absurd (hm.symm.trans hmarked) (by decide)
  configs := h.configs
  reported := by
    intro ho text htext hr
    have hreading := (h.reported ho text htext hr).1
    rw [hreading] at hpassed
    cases hpassed
  links := fun _ => h.links hpassed
  serving := by
    rintro - (hm | he)
    · exact absurd (hm.symm.trans hmarked) (by decide)
    · exact h.serving hpassed (Or.inr he)
  deleted := fun _ => hrow

/-! What a rule or link request can change. -/

theorem hub_mode {b b' : Ingress.State} {a : Ingress.Act} (hs : SessionStep w b a b') :
    (b'.agents k).ingressMode = (b.agents k).ingressMode ∨
      a = .commit k ∧ ∃ p, b.locked k = some p ∧ b'.agents k = p.next := by
  cases hs with
  | begin | rollback | create | update | readOthers | readRulesA | readRulesB | writeLink
      | dropLink =>
    exact Or.inl rfl
  | commit hp =>
    rename_i k' p
    rcases eq_or_ne k k' with rfl | hne
    · exact Or.inr ⟨rfl, p, hp, Function.update_self ..⟩
    · left
      change (Function.update b.agents k' p.next k).ingressMode = _
      rw [Function.update_of_ne hne]
  | elsewhere hl =>
    rename_i k'
    left
    change (Function.update b.agents k' _ k).ingressMode = _
    rcases eq_or_ne k k' with rfl | hne
    · rw [Function.update_self]
    · rw [Function.update_of_ne hne]

theorem servingLinks_delete {links : LinkTable} {id : ℕ} (h : servingLinks links.rows k = []) :
    servingLinks (links.delete id).rows k = [] := by
  have hnone : ∀ l ∈ links.rows, l.serves k = false := by
    have hfilter : links.rows.filter (·.serves k) = [] := by
      rw [← List.length_eq_zero_iff, ← List.length_insertionSort (·.id ≤ ·.id)]
      exact List.length_eq_zero_iff.mpr h
    simpa using List.filter_eq_nil_iff.mp hfilter
  have hfilter : (links.delete id).rows.filter (·.serves k) = [] := by
    rw [List.filter_eq_nil_iff]
    intro l hl
    simp [hnone l (List.mem_filter.mp hl).1]
  rw [servingLinks, hfilter]
  rfl

theorem hub_links {b b' : Ingress.State} {a : Ingress.Act} (hs : SessionStep w b a b')
    (h : servingLinks b.links.rows k = []) : servingLinks b'.links.rows k = [] ∨
      ∃ i o, a = .writeLink i ∧ b.sessions i = some o ∧ b'.links = o.write.apply b.links := by
  cases hs with
  | begin | commit | rollback | elsewhere | create | update | readOthers | readRulesA
      | readRulesB => exact Or.inl h
  | writeLink ho =>
    rename_i i o _ _
    exact Or.inr ⟨i, o, rfl, ho, rfl⟩
  | dropLink => exact Or.inl (servingLinks_delete h)

/-! One step keeps the invariant. -/

theorem Inv.setConfig {i : ℕ} {o : Option ConfigCall} (h : Inv hash s)
    (ho : ∀ d, o = some d → Harmless d)
    (hsound : ∀ c, Sound hash s c → Sound hash (s.setConfig i o) c) :
    Inv hash (s.setConfig i o) where
  deletes := fun j c hc => hsound c (h.deletes j c hc)
  configs := by
    intro i' d hd
    rcases configs_setConfig hd with ⟨-, hd⟩ | hd
    · exact ho d hd
    · exact h.configs i' d hd

/-- A delete goes on; its facts are checked in the state it leaves. -/
theorem Inv.setDelete {o : Option (DeleteCall H)} (h : Inv hash s)
    (ho : ∀ c, o = some c → Sound hash s c) :
    Inv hash (s.setDelete j o) where
  deletes := by
    intro j' c hc
    have hs : Sound hash s c := by
      rcases deletes_setDelete hc with ⟨-, hc⟩ | hc
      · exact ho c hc
      · exact h.deletes j' c hc
    exact hs.same rfl rfl rfl id
  configs := h.configs

theorem Inv.setRow {row : Row H} (h : Inv hash s)
    (hrow : (s.row k).isDeleted = true → row.isDeleted = true) :
    Inv hash (s.setRow k row) where
  deletes := by
    intro j c hc
    refine (h.deletes j c hc).same rfl rfl rfl fun hd => ?_
    change (Function.update s.row k row c.agentId).isDeleted = true
    rcases eq_or_ne c.agentId k with he | hne
    · rw [he, Function.update_self]
      exact hrow (he ▸ hd)
    · rwa [Function.update_of_ne hne]
  configs := h.configs

/-- A change of the heartbeats on their way. -/
theorem Inv.same (h : Inv hash s) (hhub : t.hub = s.hub) (hgateway : t.gateway = s.gateway)
    (hconfigs : t.configs = s.configs) (hdeletes : t.deletes = s.deletes) (hrow : t.row = s.row) :
    Inv hash t where
  deletes := fun j c hc => (h.deletes j c (hdeletes ▸ hc)).same hhub hgateway hconfigs fun hd => by
    rwa [hrow]
  configs := fun i d hd => h.configs i d (hconfigs ▸ hd)

theorem inv_hub {b : Ingress.State} {a : Ingress.Act} (hs : SessionStep w s.hub a b)
    (hok : Steady hash s (.hub a))
    (h : Inv hash s) : Inv hash (s.setHub b) where
  deletes := by
    intro j c hc
    have hc' := h.deletes j c hc
    apply hc'.hub
    · intro ho hm
      rcases hub_mode (k := c.agentId) hs with hsame | ⟨rfl, p, hp, hb⟩
      · rw [hsame]
        exact hc'.mode ho hm
      · -- a switch to restricted would have met this delete
        by_contra hne
        have hr : p.next.ingressMode = .restricted := by
          rw [hb] at hne
          cases hmode : p.next.ingressMode with
          | open_ => exact absurd hmode hne
          | restricted => rfl
        have := hok p hp hr j c hc rfl ho
        rw [hm] at this
        cases this
    · intro hp he
      rcases hub_links hs (hc'.serving hp he) with hl | ⟨i, o, rfl, ho, hb⟩
      · exact hl
      · rw [hb]
        exact hok o ho j c hc hp he
  configs := h.configs

theorem inv_step [DecidableEq H] (hinj : Function.Injective hash) (hs : Step w hash s a t)
    (hok : Steady hash s a)
    (h : Inv hash s) : Inv hash t := by
  cases hs with
  | hub _ hs => exact inv_hub hs hok h
  | configLoad _ hk => exact h.setConfig (by rintro d ⟨⟩ - r hr; cases hr) fun c hc => hc.load hk
  | configIfaces hd =>
    refine h.setConfig ?_ fun c hc => hc.read hd rfl rfl rfl
    rintro d ⟨⟩
    exact (h.configs _ _ hd).of_eq rfl rfl
  | configAliases hd =>
    refine h.setConfig ?_ fun c hc => hc.read hd rfl rfl rfl
    rintro d ⟨⟩
    exact (h.configs _ _ hd).of_eq rfl rfl
  | configRules hd =>
    refine h.setConfig ?_ fun c hc => hc.read hd rfl rfl rfl
    rintro d ⟨⟩ hm r hr
    exact restricts_open (Option.some.inj hr) hm
  | configLinks hd _ hnone =>
    refine h.setConfig ?_ fun c hc => hc.readLinks hd hnone
    rintro d ⟨⟩
    exact (h.configs _ _ hd).of_eq rfl rfl
  | configReceived hd =>
    rename_i i d _
    have hlost : Inv hash (s.setConfig i none) := h.setConfig (by rintro d ⟨⟩) fun c hc => hc.lost
    exact ⟨fun j c hc => (h.deletes j c hc).received hd (h.configs _ _ hd), hlost.configs⟩
  | configLost => exact h.setConfig (by rintro d ⟨⟩) fun c hc => hc.lost
  | report => exact h.same rfl rfl rfl rfl rfl
  | heartbeatLoad => exact h.same rfl rfl rfl rfl rfl
  | heartbeatRefused => exact h.same rfl rfl rfl rfl rfl
  | heartbeatStore =>
    refine Inv.setRow ?_ id
    exact h.same rfl rfl rfl rfl rfl
  | deleteLoad =>
    refine h.setDelete ?_
    rintro c ⟨⟩
    exact sound_load hok
  | deleteIfaces hc =>
    refine h.setDelete ?_
    rintro c ⟨⟩
    exact (h.deletes _ _ hc).guardRead _ _
  | deleteAliases hc =>
    refine h.setDelete ?_
    rintro c ⟨⟩
    exact (h.deletes _ _ hc).guardRead _ _
  | deleteRules hc hphase _ _ hguard =>
    refine h.setDelete ?_
    rintro c ⟨⟩
    exact (h.deletes _ _ hc).tornDown hinj rfl hguard hphase
  | deleteLinks hc hphase hifaces =>
    refine h.setDelete ?_
    rintro c ⟨⟩
    have hserving := ifacesFor_eq_nil.mp hifaces
    exact (h.deletes _ _ hc).unlinked hphase hserving (hok _ hc hserving)
  | deleteRefused => exact h.setDelete (by rintro c ⟨⟩)
  | deleteMark hc hphase =>
    rename_i j c _
    have hrow : Inv hash (s.setRow c.agentId { s.row c.agentId with isDeleted := true }) :=
      h.setRow fun _ => rfl
    refine hrow.setDelete ?_
    rintro c' ⟨⟩
    exact (hrow.deletes j c hc).later (by rw [hphase]; rfl) rfl (by simp [State.setRow])
  | deleteRuleRows hc hphase hrules hmode =>
    rename_i j c b
    have hhub : Inv hash (s.setHub (s.hub.setAgent c.agentId b)) := by
      refine ⟨fun j' c' hc' => (h.deletes j' c' hc').hub ?_ (h.deletes j' c' hc').serving,
        h.configs⟩
      intro ho hm
      change (Function.update s.hub.agents c.agentId b c'.agentId).ingressMode = .open_
      rcases eq_or_ne c'.agentId c.agentId with he | hne
      · rw [he, Function.update_self, hmode, ← he]
        exact (h.deletes j' c' hc').mode ho hm
      · rw [Function.update_of_ne hne]
        exact (h.deletes j' c' hc').mode ho hm
    refine hhub.setDelete ?_
    rintro c' ⟨⟩
    have hsound := hhub.deletes j c hc
    exact hsound.later (by rw [hphase]; rfl) rfl (hsound.deleted (by rw [hphase]; rfl))
  | deleteLinkIds hc hphase =>
    refine h.setDelete ?_
    rintro c ⟨⟩
    have hsound := h.deletes _ _ hc
    exact hsound.later (by rw [hphase]; rfl) rfl (hsound.deleted (by rw [hphase]; rfl))
  | deleteLinkRow hc hphase =>
    rename_i j id ids c
    have hhub : Inv hash (s.setHub (s.hub.setLinks (s.hub.links.delete id))) := by
      refine ⟨fun j' c' hc' => (h.deletes j' c' hc').hub (h.deletes j' c' hc').mode fun hp he => ?_,
        h.configs⟩
      exact servingLinks_delete ((h.deletes j' c' hc').serving hp he)
    refine hhub.setDelete ?_
    rintro c' ⟨⟩
    have hsound := hhub.deletes j c hc
    exact hsound.later (by rw [hphase]; rfl) rfl (hsound.deleted (by rw [hphase]; rfl))
  | deleteReturn hc hphase =>
    refine h.setDelete ?_
    rintro c ⟨⟩
    have hsound := h.deletes _ _ hc
    exact hsound.later (by rw [hphase]; rfl) rfl (hsound.deleted (by rw [hphase]; rfl))

/-- In a run whose deletes find the reports and the links up to date, and behind which nothing is
switched on again, the gateway of a deleted agent filters nothing, has no direct link, and is not
answered any more. -/
theorem deleted_leaves_nothing [DecidableEq H] (hinj : Function.Injective hash)
    (hdeletes : ∀ j, s.deletes j = none)
    (hconfigs : ∀ i, s.configs i = none) (h : Run (Guarded (Step w hash) (Steady hash)) s xs t)
    (hc : t.deletes j = some c) (hreturned : c.phase = .returned) :
    (∀ text ∈ (t.gateway c.agentId).filter, restricts text = false) ∧
    (t.gateway c.agentId).links = [] ∧
      (∀ i u, ¬ Step w hash t (.configLoad i c.agentId) u) ∧ ∀ u, ¬ Step w hash t
      (.heartbeatLoad c.agentId) u := by
  have hstart : Inv hash s :=
    ⟨fun j c hc => by simp [hdeletes] at hc, fun i d hd => by simp [hconfigs] at hd⟩
  have hstep : ∀ s a t, Step w hash s a t → Steady hash s a → Inv hash s → Inv hash t :=
    fun _ _ _ hs hok hi => inv_step hinj hs hok hi
  have hinv : Inv hash t := h.guarded_invariant hstep hstart
  have hsound := hinv.deletes j c hc
  have hopen := hsound.opened (by rw [hreturned]; nofun)
  have hdeleted := hsound.deleted (by rw [hreturned]; rfl)
  refine ⟨?_, ?_, ?_, ?_⟩
  · intro text htext
    by_contra hr
    have hreading := (hsound.reported hopen text htext (eq_true_of_ne_false hr)).1
    rw [hreturned] at hreading
    cases hreading
  · refine List.eq_nil_iff_forall_not_mem.mpr fun id hid => ?_
    exact hsound.links (by rw [hreturned]; rfl) id (Or.inl hid)
  · rintro i u (_ | ⟨-, hk⟩)
    rw [hdeleted] at hk
    cases hk
  · rintro u hs
    cases hs with
    | heartbeatLoad _ _ hk =>
      rw [hdeleted] at hk
      cases hk

/-! Two sites; agent 1 is deleted, without and with a direct link. -/

def sampleWorld : World := ⟨fun _ => "wg0", fun _ => none⟩

def sampleState (links : LinkTable) : State String where
  hub := ⟨fun _ => ⟨.open_, .empty⟩, fun _ => none, links, fun _ => none⟩
  row := fun _ => ⟨false, none, false, none⟩
  gateway := fun _ => ⟨none, []⟩
  configs := fun _ => none
  deletes := fun _ => none
  sent := fun _ => []
  storing := fun _ => none

/-- A delete of agent 1, which has `n` direct links. -/
def deleteActs (n : ℕ) : List Act :=
  [.deleteLoad 0 1, .deleteIfaces 0, .deleteAliases 0, .deleteRules 0 0, .deleteLinks 0,
    .deleteMark 0,
    .deleteRuleRows 0, .deleteLinkIds 0] ++ List.replicate n (.deleteLinkRow 0) ++ [.deleteReturn 0]

theorem reported_idle (hfilter : (s.gateway k).filter = none) (hconfigs : ∀ i, s.configs i = none) :
    Reported hash s k :=
  ⟨by simp [hfilter], fun i d hd => by simp [hconfigs] at hd⟩

theorem not_holds_idle {id : ℕ} (hlinks : (s.gateway k).links = [])
    (hconfigs : ∀ i, s.configs i = none) :
    ¬ Holds s k id := by
  rintro (hid | ⟨i, d, ids, hd, -⟩)
  · rw [hlinks] at hid
    cases hid
  · rw [hconfigs i] at hd
    cases hd

/-- An agent that was never polled is deleted. -/
theorem delete_idle :
    ∃ t, Run (Guarded (Step sampleWorld id) (Steady id)) (sampleState .empty) (deleteActs 0) t ∧
    ∃ c, t.deletes 0 = some c ∧ c.phase = .returned ∧ c.agentId = 1 :=
  ⟨_, .cons ⟨.deleteLoad rfl rfl, Or.inr (reported_idle rfl fun _ => rfl)⟩
    (.cons ⟨.deleteIfaces rfl rfl rfl, trivial⟩ (.cons ⟨.deleteAliases rfl rfl rfl rfl, trivial⟩
    (.cons ⟨.deleteRules rfl rfl rfl rfl rfl, trivial⟩
    (.cons ⟨.deleteLinks rfl rfl rfl, fun _ _ _ _ => not_holds_idle rfl fun _ => rfl⟩
    (.cons ⟨.deleteMark rfl rfl rfl, trivial⟩
    (.cons ⟨.deleteRuleRows (b := ⟨.open_, .empty⟩) rfl rfl rfl rfl, trivial⟩
    (.cons ⟨.deleteLinkIds rfl rfl, trivial⟩
      (.cons ⟨.deleteReturn rfl rfl, trivial⟩ (.nil _))))))))), _, rfl, rfl, rfl⟩

theorem deleted_idle_leaves_nothing : ∃ t, ∃ c, t.deletes 0 = some c ∧ c.agentId = 1 ∧
    (∀ text ∈ (t.gateway c.agentId).filter, restricts text = false) ∧
    (t.gateway c.agentId).links = [] ∧
      (∀ i u, ¬ Step sampleWorld id t (.configLoad i c.agentId) u) ∧
        ∀ u, ¬ Step sampleWorld id t (.heartbeatLoad c.agentId) u := by
  obtain ⟨t, hrun, c, hc, hreturned, hk⟩ := delete_idle
  exact ⟨t, c, hc, hk, deleted_leaves_nothing Function.injective_id (fun _ => rfl) (fun _ => rfl)
    hrun hc hreturned⟩

def sampleLink : Link where
  id := 1
  name := "Nord-Süd"
  agentAId := 1
  agentBId := 2
  listenPort := 51999
  endpointHost := "nord.example.org"
  tunnelSubnet := .first
  mtu := none
  enabled := true
  natA := false
  natB := false

def sampleLinks : LinkTable :=
  Rows.empty.insert (fun id => { sampleLink with id := id }) fun _ => rfl

def switchOff : LinkPatch := ⟨none, none, none, none, none, none, none, some false, none, none⟩

def sampleContext : MeshContext :=
  ⟨fun _ => none, fun _ => none, fun _ _ => false, [], [], sampleLinks.rows⟩

/-- Agent 1 polls, its direct link is switched off, and it is deleted before the next poll. -/
def unpolledActs : List Act :=
  [.configLoad 0 1, .configIfaces 0, .configAliases 0, .configRules 0, .configLinks 0 false [],
    .configReceived 0,
    .hub (.openLink 0 (.update sampleLink switchOff)), .hub (.readOthers 0 sampleContext),
      .hub (.writeLink 0)] ++
    deleteActs 1

theorem link_left_behind : ∃ t, Run (Step sampleWorld id) (sampleState sampleLinks) unpolledActs t ∧
    ∃ c, t.deletes 0 = some c ∧ c.phase = .returned ∧ c.agentId = 1 ∧
    (t.gateway c.agentId).links = [1] :=
  ⟨_, .cons (.configLoad rfl rfl) (.cons (.configIfaces rfl rfl) (.cons (.configAliases rfl rfl rfl)
    (.cons (.configRules rfl rfl rfl rfl)
      (.cons (.configLinks rfl rfl rfl) (.cons (.configReceived rfl rfl)
    (.cons (.hub trivial (.update rfl (List.mem_singleton.mpr rfl) (by decide)))
    (.cons (.hub trivial (.readOthers rfl rfl rfl rfl))
      (.cons (.hub trivial (.writeLink rfl rfl nofun))
    (.cons (.deleteLoad rfl rfl)
      (.cons (.deleteIfaces rfl rfl rfl) (.cons (.deleteAliases rfl rfl rfl rfl)
    (.cons (.deleteRules rfl rfl rfl rfl rfl)
      (.cons (.deleteLinks rfl rfl rfl) (.cons (.deleteMark rfl rfl rfl)
    (.cons (.deleteRuleRows (b := ⟨.open_, .empty⟩) rfl rfl rfl rfl) (.cons (.deleteLinkIds rfl rfl)
    (.cons (.deleteLinkRow rfl rfl) (.cons (.deleteReturn rfl rfl) (.nil _))))))))))))))))))), _,
      rfl, rfl, rfl, rfl⟩

end FloppyGuard.Teardown

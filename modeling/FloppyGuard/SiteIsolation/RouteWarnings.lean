import FloppyGuard.Agent.Reach
import FloppyGuard.SiteIsolation.LinkLoader

/-! `routeWarnings` of `site-isolation-rules.js`, next to the networks that the hub routes to an
agent. -/
namespace FloppyGuard

def LinkType.ofText : String → LinkType
  | "client" => .client
  | "site-to-site" => .siteToSite
  | "hub-link" => .hubLink
  | "imported" => .imported
  | _ => .unknown

namespace SiteIsolation

open AgentSync WireGuard

structure AgentRow extends Acl where
  id : ℕ
  name : String
  wgLinkName : Option String

/-- `parseJsonArray(raw, null)` -/
def parseJsonArray (json : ParseArray) (raw : Option String) : Option (List String) :=
  (raw.filter (· ≠ "")).bind json

inductive Via
  | allowedNetworks
  | allowedSites
  | fullMesh
deriving DecidableEq

def Via.text : Via → String
  | allowedNetworks => "allowed_networks"
  | allowedSites => "allowed_sites"
  | fullMesh => "full-mesh"

structure RouteWarning where
  agentId : ℕ
  agentName : String
  linkId : String
  otherLinkId : String
  otherName : String
  networks : List Cidr
  via : Via
deriving DecidableEq

def RouteWarning.code (_ : RouteWarning) : String := "route-dropped"

def RouteWarning.message (w : RouteWarning) : String :=
  w.agentName ++ ": Route zu " ++ w.otherName ++ " (" ++
    ", ".intercalate (w.networks.map Cidr.render) ++
    ") vorhanden, wird am Hub verworfen"

section Warnings
variable (json : ParseArray) (pairs : List Pair) (links : List Link)

/-- The link an agent is bound to, by a name that no other link has. -/
def agentSite (agent : AgentRow) : Option Link :=
  match agent.wgLinkName with
  | none | some "" => none
  | some n =>
    if (links.map (·.name)).count n = 1 then (links.find? (·.name == n)).filter isSiteLink else none

def otherSite (own : Link) (p : Pair) : Option Link :=
  let otherId := if p.a = own.id then some p.b else if p.b = own.id then some p.a else none
  ((otherId.filter (· ≠ "")).bind (byId links)).filter isSiteLink

def otherNets (other : Link) : List Cidr := other.importedNetworks.filterMap canonicalCidr

def droppedRoutes (agent : AgentRow) (other : Link) : Via × List Cidr :=
  match (parseJsonArray json agent.allowedNetworks).getD [] with
  | e :: es =>
    (.allowedNetworks, ((e :: es).filterMap canonicalCidr).filter fun n =>
      (otherNets other).any fun o => decide (o.Overlaps n))
  | [] =>
    match (parseJsonArray json agent.allowedSites).getD [] with
    | s :: ss => (.allowedSites, if other.name ∈ s :: ss then otherNets other else [])
    | [] => (.fullMesh, otherNets other)

def pairWarning (agent : AgentRow) (own : Link) (p : Pair) : Option RouteWarning :=
  match otherSite links own p with
  | none => none
  | some other =>
    let (via, nets) := droppedRoutes json agent other
    if nets.eraseDups = [] then none
    else some ⟨agent.id, agent.name, own.id, other.id, other.name, nets.eraseDups, via⟩

def agentWarnings (agent : AgentRow) : List RouteWarning :=
  match agentSite links agent with
  | none => []
  | some own => pairs.filterMap (pairWarning json links agent own)

/-- `routeWarnings` -/
def routeWarnings (agents : List AgentRow) : List RouteWarning :=
  agents.flatMap (agentWarnings json pairs links)

/-- The networks of other sites in the hub peer of an agent, as the sync computes them. -/
def routedReach (metadata : Table String LinkMeta) (agent : AgentRow) : List String :=
  match agent.wgLinkName.bind (meshIndex metadata).linksByName.get? with
  | none => []
  | some m => (agentOtherSiteNets json agent.toAcl m (meshIndex metadata)).nets

end Warnings

variable {json : ParseArray} {pairs : List Pair} {links : List Link} {agents : List AgentRow}
  {agent : AgentRow}
  {metadata : Table String LinkMeta} {own x : Link} {n : String} {c : Cidr} {raw : Option String}

/-- A loaded link and its entry. What the entry leaves out comes from elsewhere. -/
structure LoadedFrom (l : Link) (e : String × LinkMeta) : Prop where
  id : l.id = e.1
  name : ∀ n, e.2.name = some n → n ≠ "" → l.name = n
  type : ∀ t, e.2.type = some t → t ≠ "" → l.type = some (.ofText t)
  networks : l.importedNetworks = e.2.importedNetworks.getD []

/-- All networks of the links are those of the store, in canonical form. -/
structure FromStore (links : List Link) (metadata : Table String LinkMeta) : Prop where
  ids : (links.map (·.id)).Nodup
  nonempty : "" ∉ links.map (·.id)
  loaded : ∀ e ∈ metadata.entries, ∃ l ∈ links, LoadedFrom l e
  networks : ∀ l ∈ links, (∃ e ∈ metadata.entries, LoadedFrom l e) ∨ l.importedNetworks = []
  canonical : ∀ l ∈ links, ∀ n ∈ l.importedNetworks, (canonicalCidr n).map Cidr.render = some n

theorem FromStore.exists_render (h : FromStore links metadata) (hx : x ∈ links)
    (hn : n ∈ x.importedNetworks) :
    ∃ c : Cidr, c.render = n := by
  obtain ⟨c, -, hc⟩ := Option.map_eq_some_iff.mp (h.canonical x hx n hn)
  exact ⟨c, hc⟩

/-- Some warning names the network for the agent and the other site. -/
def Reports (ws : List RouteWarning) (agent : AgentRow) (x : Link) (n : String) : Prop :=
  ∃ w ∈ ws, w.agentId = agent.id ∧ w.otherLinkId = x.id ∧ n ∈ w.networks.map Cidr.render

/-- The site of the agent is paired with the other site. -/
def PairedSites (pairs : List Pair) (own x : Link) : Prop :=
  isSiteLink x = true ∧ ∃ p ∈ pairs, p.a = own.id ∧ p.b = x.id ∨ p.b = own.id ∧ p.a = x.id

def Truthful (json : ParseArray) (metadata : Table String LinkMeta) (pairs : List Pair)
    (links : List Link)
    (agents : List AgentRow) : Prop :=
  ∀ agent ∈ agents, ∀ x ∈ links, agentSite links agent ≠ some x → ∀ n,
    Reports (routeWarnings json pairs links agents) agent x n ↔
      (∃ own, agentSite links agent = some own ∧ PairedSites pairs own x) ∧ n ∈ x.importedNetworks ∧
        n ∈ routedReach json metadata agent

/-- The sync may route the network to an agent of the site: the store has its name, the prefix is
long enough and the site does not have the network itself. -/
def Routable (metadata : Table String LinkMeta) (own : Link) (n : String) : Prop :=
  (∃ e ∈ metadata.entries, e.2.name = some own.name) ∧ isAcceptableNetworkPrefix n = true ∧
    insideOwn true own.importedNetworks n = false

/-- The entries of a column without the space around them. -/
def trimmed (entries : List String) : List String :=
  (entries.map fun s => String.ofList (Text.trim s.toList)).filter (· ≠ "")

/-- Both readings of the columns agree on the networks of one other site. -/
def ReadAlike (json : ParseArray) (metadata : Table String LinkMeta) (agent : AgentRow)
    (own x : Link) : Prop :=
  match (parseJsonArray json agent.allowedNetworks).getD [],
    (parseJsonArray json agent.allowedSites).getD [] with
  | e :: es, _ => ∀ c ∈ (e :: es).filterMap canonicalCidr, (∃ o ∈ otherNets x, o.Overlaps c) →
      c.render ∈ x.importedNetworks ∧ c.render ∈ trimmed (e :: es) ∧ Routable metadata own c.render
  | [], s :: ss => ∀ n ∈ x.importedNetworks, x.name ∈ s :: ss ↔
      Routable metadata own n ∧
        whitelisted (meshIndex metadata).linksByName (trimmed (s :: ss)) n = true
  | [], [] => ∀ n ∈ x.importedNetworks, Routable metadata own n

/-! What is reported. -/

theorem mem_of_agentSite (h : agentSite links agent = some own) :
    own ∈ links ∧ isSiteLink own = true ∧ agent.wgLinkName = some own.name ∧ own.name ≠ "" ∧
      (links.map (·.name)).count own.name = 1 := by
  unfold agentSite at h
  split at h
  · cases h
  · cases h
  · next k hne hk =>
    split at h
    · next hcount =>
      obtain ⟨hfind, hsite⟩ := Option.filter_eq_some_iff.mp h
      have hname : own.name = k := by simpa using List.find?_some hfind
      subst hname
      exact ⟨List.mem_of_find?_eq_some hfind, hsite, hk, hne, hcount⟩
    · cases h

theorem eq_of_ids (hids : (links.map (·.id)).Nodup) (hl : own ∈ links) (hx : x ∈ links)
    (h : own.id = x.id) : own = x :=
  List.inj_on_of_nodup_map hids hl hx h

theorem eq_of_name (hcount : (links.map (·.name)).count own.name = 1) (hown : own ∈ links)
    (hx : x ∈ links)
    (h : x.name = own.name) : x = own := by
  rw [List.count, List.countP_map, List.countP_eq_length_filter, List.length_eq_one_iff] at hcount
  obtain ⟨l, hl⟩ := hcount
  have hmem {y : Link} (hy : y ∈ links) (hname : y.name = own.name) : y = l := by
    rw [← List.mem_singleton, ← hl]
    exact List.mem_filter.mpr ⟨hy, by simpa using hname⟩
  rw [hmem hx h, hmem hown rfl]

theorem byId_of_mem (hids : (links.map (·.id)).Nodup) (hx : x ∈ links) : byId links x.id = some x :=
  byId_eq_some hx rfl fun _ hk hid => eq_of_ids hids hk hx hid

/-- The other side of a pair, as the loop looks it up. -/
theorem otherSite_iff {p : Pair} (h : FromStore links metadata) (hx : x ∈ links) (hne : own ≠ x)
    (hown : own ∈ links) :
    otherSite links own p = some x ↔ isSiteLink x = true ∧
    (p.a = own.id ∧ p.b = x.id ∨ p.b = own.id ∧ p.a = x.id) := by
  have hxid : x.id ≠ "" := fun he => h.nonempty (he ▸ List.mem_map_of_mem hx)
  have hid : own.id ≠ x.id := fun he => hne (eq_of_ids h.ids hown hx he)
  have hlook {id : String} : ((some id).filter (· ≠ "")).bind (byId links) = some x ↔
      id = x.id := by
    constructor
    · intro hb
      obtain ⟨id', hid', hb⟩ := Option.bind_eq_some_iff.mp hb
      obtain ⟨hs, -⟩ := Option.filter_eq_some_iff.mp hid'
      obtain rfl := Option.some.inj hs
      have := List.find?_some hb
      exact (by simpa using this : x.id = id).symm
    · rintro rfl
      rw [Option.filter_some, if_pos (by simpa using hxid)]
      exact byId_of_mem h.ids hx
  unfold otherSite
  dsimp only
  rw [Option.filter_eq_some_iff, and_comm]
  refine and_congr_right fun _ => ?_
  split
  · next ha =>
    rw [hlook]
    constructor
    · exact fun hb => Or.inl ⟨ha, hb⟩
    · rintro (⟨-, hb⟩ | ⟨-, hb⟩)
      · exact hb
      · exact absurd (ha.symm.trans hb) hid
  · next ha =>
    split
    · next hb =>
      rw [hlook]
      constructor
      · exact fun ha => Or.inr ⟨hb, ha⟩
      · rintro (⟨ha', -⟩ | ⟨-, hx'⟩)
        · exact absurd ha' ha
        · exact hx'
    · next hb =>
      constructor
      · intro hn
        cases hn
      · rintro (⟨ha', -⟩ | ⟨hb', -⟩)
        · exact absurd ha' ha
        · exact absurd hb' hb

theorem mem_otherSite {p : Pair} (h : otherSite links own p = some x) : x ∈ links := by
  unfold otherSite at h
  obtain ⟨hb, -⟩ := Option.filter_eq_some_iff.mp h
  obtain ⟨id, -, hb⟩ := Option.bind_eq_some_iff.mp hb
  exact List.mem_reverse.mp (List.mem_of_find?_eq_some hb)

theorem pairWarning_iff {p : Pair} {w : RouteWarning} :
    pairWarning json links agent own p = some w ↔
    ∃ other, otherSite links own p = some other ∧
      (droppedRoutes json agent other).2.eraseDups ≠ [] ∧
      w = ⟨agent.id, agent.name, own.id, other.id, other.name,
        (droppedRoutes json agent other).2.eraseDups,
        (droppedRoutes json agent other).1⟩ := by
  unfold pairWarning
  cases otherSite links own p with
  | none => simp
  | some other =>
    dsimp only
    split
    · next he => simp [he]
    · next he =>
      constructor
      · intro h
        exact ⟨other, rfl, he, (Option.some.inj h).symm⟩
      · rintro ⟨_, ho, -, rfl⟩
        rw [Option.some.inj ho]

theorem mem_agentWarnings {w : RouteWarning} (hown : agentSite links agent = some own) :
    w ∈ agentWarnings json pairs links agent ↔
      ∃ p ∈ pairs, pairWarning json links agent own p = some w := by
  rw [agentWarnings, hown]
  exact List.mem_filterMap

/-- Only an agent with a site has warnings, and they carry its id. -/
theorem agent_of_warning {w : RouteWarning} (h : w ∈ agentWarnings json pairs links agent) :
    w.agentId = agent.id ∧ ∃ own, agentSite links agent = some own := by
  cases hown : agentSite links agent with
  | none =>
    rw [agentWarnings, hown] at h
    cases h
  | some own =>
    obtain ⟨p, -, hp⟩ := (mem_agentWarnings hown).mp h
    obtain ⟨_, -, -, rfl⟩ := pairWarning_iff.mp hp
    exact ⟨rfl, own, rfl⟩

/-- The report for a paired site lists the dropped routes of its own column. -/
theorem reports_iff (h : FromStore links metadata) (hids : (agents.map (·.id)).Nodup)
    (ha : agent ∈ agents)
    (hown : agentSite links agent = some own) (hx : x ∈ links) (hne : own ≠ x) :
    Reports (routeWarnings json pairs links agents) agent x n ↔
      PairedSites pairs own x ∧ n ∈ (droppedRoutes json agent x).2.map Cidr.render := by
  have hmem := (mem_of_agentSite hown).1
  constructor
  · rintro ⟨w, hw, hagent, hother, hn⟩
    obtain ⟨agent', ha', hw⟩ := List.mem_flatMap.mp hw
    obtain rfl : agent' = agent :=
      List.inj_on_of_nodup_map hids ha' ha ((agent_of_warning hw).1.symm.trans hagent)
    obtain ⟨p, hp, hw⟩ := (mem_agentWarnings hown).mp hw
    obtain ⟨other, ho, -, rfl⟩ := pairWarning_iff.mp hw
    obtain rfl : other = x := eq_of_ids h.ids (mem_otherSite ho) hx hother
    obtain ⟨hsite, hpair⟩ := (otherSite_iff h hx hne hmem).mp ho
    refine ⟨⟨hsite, p, hp, hpair⟩, ?_⟩
    obtain ⟨c, hc, rfl⟩ := List.mem_map.mp hn
    exact List.mem_map_of_mem (List.mem_eraseDups.mp hc)
  · rintro ⟨⟨hsite, p, hp, hpair⟩, hn⟩
    obtain ⟨c, hc, rfl⟩ := List.mem_map.mp hn
    have ho := (otherSite_iff h hx hne hmem).mpr ⟨hsite, hpair⟩
    have hc : c ∈ (droppedRoutes json agent x).2.eraseDups := List.mem_eraseDups.mpr hc
    have hw :=
      (mem_agentWarnings hown).mpr ⟨p, hp, pairWarning_iff.mpr ⟨x, ho, List.ne_nil_of_mem hc, rfl⟩⟩
    exact ⟨_, List.mem_flatMap.mpr ⟨agent, ha, hw⟩, rfl, rfl, List.mem_map_of_mem hc⟩

theorem no_reports (hids : (agents.map (·.id)).Nodup) (ha : agent ∈ agents)
    (hown : agentSite links agent = none) :
    ¬ Reports (routeWarnings json pairs links agents) agent x n := by
  rintro ⟨w, hw, hagent, -⟩
  obtain ⟨agent', ha', hw⟩ := List.mem_flatMap.mp hw
  obtain ⟨hid, own, hown'⟩ := agent_of_warning hw
  obtain rfl : agent' = agent := List.inj_on_of_nodup_map hids ha' ha (hid.symm.trans hagent)
  rw [hown] at hown'
  cases hown'

/-! What is routed. -/

theorem parseAllowedSites_eq : parseAllowedSites json raw =
    if (parseJsonArray json raw).getD [] = [] then none
    else some (trimmed ((parseJsonArray json raw).getD [])).eraseDups := by
  unfold parseAllowedSites parseJsonArray
  split
  · rfl
  · rfl
  · next _ r hne =>
    have hr : (some r).filter (· ≠ "") = some r := by simpa [Option.filter_some] using hne
    rw [hr, Option.bind_some]
    split
    · next hj => simp [hj]
    · next hj => simp [hj]
    · next parsed hnil hj =>
      rw [hj, Option.getD_some, if_neg]
      · rfl
      · rintro rfl
        exact hnil rfl

/-- The entry of the agent's own link, when the store has its name. -/
theorem index_own (h : FromStore links metadata) (hown : agentSite links agent = some own) :
    (∃ e ∈ metadata.entries, e.2.name = some own.name ∧ LoadedFrom own e ∧
      (meshIndex metadata).linksByName.get? own.name = some e.2) ∨
    ((∀ e ∈ metadata.entries, e.2.name ≠ some own.name) ∧
      (meshIndex metadata).linksByName.get? own.name = none) := by
  obtain ⟨hmem, hsite, -, hne, hcount⟩ := mem_of_agentSite hown
  have hloaded : ∀ e ∈ metadata.entries, e.2.name = some own.name → LoadedFrom own e := by
    intro e he hname
    obtain ⟨l, hl, hfrom⟩ := h.loaded e he
    have hln := hfrom.name _ hname hne
    obtain rfl : l = own := eq_of_name hcount hmem hl hln
    exact hfrom
  by_cases hstored : ∃ e ∈ metadata.entries, e.2.name = some own.name
  · obtain ⟨e, he, hname⟩ := hstored
    refine Or.inl ⟨e, he, hname, hloaded e he hname,
      get?_linksByName hne he hname fun e' he' hname' => ?_⟩
    have hid := (hloaded e' he' hname').id.symm.trans (hloaded e he hname).id
    exact List.inj_on_of_nodup_map metadata.nodup he' he hid
  · push Not at hstored
    refine Or.inr ⟨hstored, ?_⟩
    cases hg : (meshIndex metadata).linksByName.get? own.name with
    | none => rfl
    | some m =>
      rw [linksByName_eq] at hg
      obtain ⟨hm, hname, -⟩ := get?_indexNames hg
      obtain ⟨e, he, rfl⟩ := List.mem_map.mp hm
      exact absurd hname (hstored e he)

theorem type_ne_client {e : String × LinkMeta} (h : LoadedFrom x e) (hsite : isSiteLink x = true) :
    e.2.type ≠ some "client" := by
  intro ht
  have := h.type _ ht (by decide)
  rw [isSiteLink, this] at hsite
  exact absurd hsite (by decide)

/-- A network of a site is in the mesh unless its prefix is too short. -/
theorem mem_allSiteNets (h : FromStore links metadata) (hx : x ∈ links)
    (hsite : isSiteLink x = true)
    (hn : n ∈ x.importedNetworks) :
    n ∈ (meshIndex metadata).allSiteNets ↔ isAcceptableNetworkPrefix n = true := by
  refine mem_collectSiteNetworks.trans ⟨And.left, fun hacc => ⟨hacc, ?_⟩⟩
  rcases h.networks x hx with ⟨e, he, hfrom⟩ | hnone
  · rw [hfrom.networks] at hn
    cases hnets : e.2.importedNetworks with
    | none => simp [hnets] at hn
    | some nets =>
      exact ⟨e.1, e.2, nets, Table.get?_of_mem he, type_ne_client hfrom hsite, hnets,
        by simpa [hnets] using hn⟩
  · simp [hnone] at hn

theorem insideOwn_eraseDups {nets : List String} :
    insideOwn true nets.eraseDups n = insideOwn true nets n := by
  rw [insideOwn, insideOwn, Bool.true_and, Bool.true_and, Bool.eq_iff_iff, List.any_eq_true,
    List.any_eq_true]
  simp only [List.mem_eraseDups]

theorem whitelisted_eraseDups {byName : Table String LinkMeta} {sites : List String} :
    whitelisted byName sites.eraseDups n = whitelisted byName sites n := by
  simp only [whitelisted, List.mem_eraseDups]

theorem notMem_of_outside {nets : List String} (h : insideOwn true nets c.render = false) :
    c.render ∉ nets := by
  intro hm
  have : insideOwn true nets c.render = true := by
    rw [insideOwn, Bool.true_and, List.any_eq_true]
    exact ⟨_, hm, by rw [cidrContains_render]; exact decide_eq_true (PrefixBlock.contains_refl c)⟩
  rw [h] at this
  cases this

variable (json) in
/-- The networks of a paired site that reach the agent, by its columns. -/
theorem routed_iff (h : FromStore links metadata) (hown : agentSite links agent = some own)
    (hx : x ∈ links)
    (hsite : isSiteLink x = true) (hn : n ∈ x.importedNetworks) :
    n ∈ routedReach json metadata agent ↔
      Routable metadata own n ∧
        match (parseJsonArray json agent.allowedNetworks).getD [],
        (parseJsonArray json agent.allowedSites).getD [] with
        | e :: es, _ => n ∈ trimmed (e :: es)
        | [], s :: ss => whitelisted (meshIndex metadata).linksByName (trimmed (s :: ss)) n = true
        | [], [] => True := by
  obtain ⟨-, hownSite, hname, -, -⟩ := mem_of_agentSite hown
  unfold routedReach
  rw [hname, Option.bind_some]
  rcases index_own h hown with ⟨e, he, hstored, hfrom, hget⟩ | ⟨hnone, hget⟩
  · obtain ⟨c, rfl⟩ := h.exists_render hx hn
    have htype : decide (e.2.type ≠ some "client") = true :=
      decide_eq_true (type_ne_client hfrom hownSite)
    have hmesh := mem_allSiteNets h hx hsite hn
    rw [hget]
    dsimp only
    rw [agentOtherSiteNets, AgentSync.mem_nets, htype, ← hfrom.networks, insideOwn_eraseDups,
      List.mem_eraseDups, hmesh,
      parseAllowedSites_eq, parseAllowedSites_eq]
    have hroutable (P : Prop) : (insideOwn true own.importedNetworks c.render = false ∧
      c.render ∉ own.importedNetworks ∧
        isAcceptableNetworkPrefix c.render = true ∧ P) ↔ Routable metadata own c.render ∧ P := by
      constructor
      · rintro ⟨hout, -, hacc, hP⟩
        exact ⟨⟨⟨e, he, hstored⟩, hacc, hout⟩, hP⟩
      · rintro ⟨⟨-, hacc, hout⟩, hP⟩
        exact ⟨hout, notMem_of_outside hout, hacc, hP⟩
    rw [hroutable]
    cases (parseJsonArray json agent.allowedNetworks).getD [] with
    | cons a as => simp only [reduceCtorEq, if_false, List.mem_eraseDups]
    | nil =>
      cases (parseJsonArray json agent.allowedSites).getD [] with
      | cons s ss => simp only [reduceCtorEq, if_false, if_true, whitelisted_eraseDups]
      | nil => simp only [if_true]
  · rw [hget]
    constructor
    · intro hn
      cases hn
    · rintro ⟨⟨⟨e, he, hstored⟩, -⟩, -⟩
      exact absurd hstored (hnone e he)

/-! Both readings of one column. -/

theorem canonicalCidr_trim (s : String) :
    canonicalCidr (String.ofList (Text.trim s.toList)) = canonicalCidr s := by
  unfold canonicalCidr
  rw [String.toList_ofList, Text.trim_trim]

theorem mem_otherNets : c ∈ otherNets x ↔ ∃ n ∈ x.importedNetworks, canonicalCidr n = some c :=
  List.mem_filterMap

theorem mem_map_otherNets (hx : ∀ n ∈ x.importedNetworks, ∃ c : Cidr, c.render = n) :
    n ∈ (otherNets x).map Cidr.render ↔ n ∈ x.importedNetworks := by
  constructor
  · intro hn
    obtain ⟨c, hc, rfl⟩ := List.mem_map.mp hn
    obtain ⟨k, hk, hkc⟩ := mem_otherNets.mp hc
    obtain ⟨d, rfl⟩ := hx k hk
    rw [canonicalCidr_render] at hkc
    rwa [← Option.some.inj hkc]
  · intro hn
    obtain ⟨c, rfl⟩ := hx n hn
    exact List.mem_map_of_mem (mem_otherNets.mpr ⟨_, hn, canonicalCidr_render c⟩)

/-- An entry that is a network once trimmed is read as that network. -/
theorem mem_filterMap_of_trimmed {entries : List String} (h : c.render ∈ trimmed entries) :
    c ∈ entries.filterMap canonicalCidr := by
  obtain ⟨s, hs, hc⟩ := List.mem_map.mp (List.mem_filter.mp h).1
  refine List.mem_filterMap.mpr ⟨s, hs, ?_⟩
  rw [← canonicalCidr_trim, hc, canonicalCidr_render]

/-- For one paired site, the dropped routes are the routed networks. -/
theorem agree_iff (h : FromStore links metadata) (hown : agentSite links agent = some own)
    (hx : x ∈ links)
    (hsite : isSiteLink x = true) :
    (∀ n, n ∈ (droppedRoutes json agent x).2.map Cidr.render ↔ n ∈ x.importedNetworks ∧
      n ∈ routedReach json metadata agent) ↔
      ReadAlike json metadata agent own x := by
  have hnets {n : String} : n ∈ (otherNets x).map Cidr.render ↔ n ∈ x.importedNetworks :=
    mem_map_otherNets fun _ hn => h.exists_render hx hn
  have hrouted {n : String} (hn : n ∈ x.importedNetworks) := routed_iff json h hown hx hsite hn
  unfold droppedRoutes ReadAlike
  revert hrouted
  cases (parseJsonArray json agent.allowedNetworks).getD [] with
  | cons a as =>
    intro hrouted
    dsimp only at hrouted ⊢
    constructor
    · intro hall c hc ⟨o, ho, hoc⟩
      have hrep : c.render ∈ (((a :: as).filterMap canonicalCidr).filter fun n =>
          (otherNets x).any fun o => decide (o.Overlaps n)).map Cidr.render :=
        List.mem_map_of_mem
          (List.mem_filter.mpr ⟨hc, List.any_eq_true.mpr ⟨o, ho, decide_eq_true hoc⟩⟩)
      obtain ⟨hmem, hreach⟩ := (hall _).mp hrep
      obtain ⟨hroutable, hlisted⟩ := (hrouted hmem).mp hreach
      exact ⟨hmem, hlisted, hroutable⟩
    · intro halike n
      constructor
      · intro hn
        obtain ⟨c, hc, rfl⟩ := List.mem_map.mp hn
        obtain ⟨hc, hover⟩ := List.mem_filter.mp hc
        obtain ⟨o, ho, hoc⟩ := List.any_eq_true.mp hover
        obtain ⟨hmem, hlisted, hroutable⟩ := halike c hc ⟨o, ho, of_decide_eq_true hoc⟩
        exact ⟨hmem, (hrouted hmem).mpr ⟨hroutable, hlisted⟩⟩
      · rintro ⟨hmem, hreach⟩
        obtain ⟨-, hlisted⟩ := (hrouted hmem).mp hreach
        obtain ⟨c, rfl⟩ := h.exists_render hx hmem
        have hc : c ∈ otherNets x := mem_otherNets.mpr ⟨_, hmem, canonicalCidr_render c⟩
        have hself : c.Overlaps c := Or.inl (PrefixBlock.contains_refl c)
        exact List.mem_map_of_mem (List.mem_filter.mpr
          ⟨mem_filterMap_of_trimmed hlisted, List.any_eq_true.mpr ⟨c, hc, decide_eq_true hself⟩⟩)
  | nil =>
    cases (parseJsonArray json agent.allowedSites).getD [] with
    | cons s ss =>
      intro hrouted
      dsimp only at hrouted ⊢
      split
      · next hlisted =>
        simp only [hnets, hlisted, true_iff]
        exact ⟨fun hall n hn => (hrouted hn).mp ((hall n).mp hn).2,
          fun halike n => ⟨fun hn => ⟨hn, (hrouted hn).mpr (halike n hn)⟩, And.left⟩⟩
      · next hlisted =>
        simp only [hlisted, List.map_nil, List.not_mem_nil, false_iff]
        exact ⟨fun hall n hn hr => hall n ⟨hn, (hrouted hn).mpr hr⟩,
          fun halike n hn => halike n hn.1 ((hrouted hn.1).mp hn.2)⟩
    | nil =>
      intro hrouted
      dsimp only at hrouted ⊢
      simp only [hnets]
      exact ⟨fun hall n hn => ((hrouted hn).mp ((hall n).mp hn).2).1,
        fun halike n => ⟨fun hn => ⟨hn, (hrouted hn).mpr ⟨halike n hn, trivial⟩⟩, And.left⟩⟩

/-- The warnings tell the truth exactly when both readings agree for every paired site. -/
theorem truthful_iff (json : ParseArray) (pairs : List Pair) (h : FromStore links metadata)
    (hids : (agents.map (·.id)).Nodup) :
    Truthful json metadata pairs links agents ↔ ∀ agent ∈ agents, ∀ own x,
    agentSite links agent = some own → x ∈ links →
      own ≠ x → PairedSites pairs own x → ReadAlike json metadata agent own x := by
  constructor
  · intro htrue agent ha own x hown hx hne hpaired
    refine (agree_iff h hown hx hpaired.1).mp fun n => ?_
    have hne' : agentSite links agent ≠ some x :=
      fun he => hne (Option.some.inj (hown.symm.trans he))
    have := htrue agent ha x hx hne' n
    rw [reports_iff h hids ha hown hx hne] at this
    constructor
    · exact fun hn => (this.mp ⟨hpaired, hn⟩).2
    · exact fun hn => (this.mpr ⟨⟨own, hown, hpaired⟩, hn⟩).2
  · intro halike agent ha x hx hne n
    cases hown : agentSite links agent with
    | none =>
      refine iff_of_false (no_reports hids ha hown) ?_
      rintro ⟨⟨_, he, -⟩, -⟩
      cases he
    | some own =>
      have hne' : own ≠ x := fun he => hne (hown.trans (congrArg some he))
      rw [reports_iff h hids ha hown hx hne']
      constructor
      · rintro ⟨hpaired, hn⟩
        exact ⟨⟨own, rfl, hpaired⟩,
          ((agree_iff h hown hx hpaired.1).mpr (halike agent ha own x hown hx hne' hpaired) n).mp
            hn⟩
      · rintro ⟨⟨_, he, hpaired⟩, hn⟩
        obtain rfl := Option.some.inj he
        exact ⟨hpaired,
          ((agree_iff h hown hx hpaired.1).mpr (halike agent ha _ x hown hx hne' hpaired) n).mpr hn⟩

def namedBonn : ParseArray := fun raw => if raw = "[\"Bonn\"]" then some ["Bonn"] else none

def bonnStore : Table String LinkMeta :=
  (Table.empty.set "wg0:a" ⟨some "Berlin", some "site-to-site", some ["10.1.0.0/16"]⟩).set "wg0:b"
    ⟨some "Bonn", some "hub-link", some ["10.1.5.0/24", "10.2.0.0/16"]⟩

def bonnLinks : List Link :=
  [⟨"wg0:a", "Berlin", some .siteToSite, ["10.1.0.0/16"], ["10.10.0.2"], true, true⟩,
    ⟨"wg0:b", "Bonn", some .hubLink, ["10.1.5.0/24", "10.2.0.0/16"], ["10.10.0.3"], true, true⟩]

def berlinAgent : AgentRow := ⟨⟨none, some "[\"Bonn\"]"⟩, 1, "gw-berlin", some "Berlin"⟩

theorem bonn_loaded : ∀ l ∈ bonnLinks, ∀ e ∈ bonnStore.entries, l.id = e.1 → LoadedFrom l e := by
  intro l hl e he hid
  have hentries : bonnStore.entries =
    [("wg0:a", ⟨some "Berlin", some "site-to-site", some ["10.1.0.0/16"]⟩),
    ("wg0:b", ⟨some "Bonn", some "hub-link", some ["10.1.5.0/24", "10.2.0.0/16"]⟩)] := by decide
  rw [hentries] at he
  rcases List.mem_pair.mp hl with rfl | rfl <;> rcases List.mem_pair.mp he with rfl | rfl
  · exact ⟨rfl, by rintro _ ⟨⟩ -; rfl, by rintro _ ⟨⟩ -; rfl, rfl⟩
  · exact absurd hid (by decide)
  · exact absurd hid (by decide)
  · exact ⟨rfl, by rintro _ ⟨⟩ -; rfl, by rintro _ ⟨⟩ -; rfl, rfl⟩

theorem bonn_fromStore : FromStore bonnLinks bonnStore where
  ids := by decide
  nonempty := by decide
  loaded := by
    intro e he
    have hids : ∀ e ∈ bonnStore.entries, ∃ l ∈ bonnLinks, l.id = e.1 := by decide
    obtain ⟨l, hl, hid⟩ := hids e he
    exact ⟨l, hl, bonn_loaded l hl e he hid⟩
  networks := by
    intro l hl
    have hids : ∀ l ∈ bonnLinks, ∃ e ∈ bonnStore.entries, l.id = e.1 := by decide
    obtain ⟨e, he, hid⟩ := hids l hl
    exact Or.inl ⟨e, he, bonn_loaded l hl e he hid⟩
  canonical := by decide

/-- Berlin may reach Bonn by its name. -/
theorem truthful_iff_bonn :
    Truthful namedBonn bonnStore [⟨"wg0:a", "wg0:b"⟩] bonnLinks [berlinAgent] ↔
    ∀ agent ∈ [berlinAgent], ∀ own x, agentSite bonnLinks agent = some own → x ∈ bonnLinks →
    own ≠ x →
      PairedSites [⟨"wg0:a", "wg0:b"⟩] own x → ReadAlike namedBonn bonnStore agent own x :=
  truthful_iff namedBonn [⟨"wg0:a", "wg0:b"⟩] bonn_fromStore (by decide)

/-- The network of Bonn inside the one of Berlin is reported, but Berlin never had a route to it. -/
theorem not_truthful_bonn : FromStore bonnLinks bonnStore ∧
    ¬ Truthful namedBonn bonnStore [⟨"wg0:a", "wg0:b"⟩] bonnLinks [berlinAgent] := by
  refine ⟨bonn_fromStore, fun h => ?_⟩
  have hreport : Reports (routeWarnings namedBonn [⟨"wg0:a", "wg0:b"⟩] bonnLinks [berlinAgent])
    berlinAgent bonnLinks[1]
      "10.1.5.0/24" := ⟨_, List.mem_singleton_self _, rfl, rfl, by decide⟩
  have hreach :=
    ((h berlinAgent (List.mem_singleton_self _) bonnLinks[1] (by decide) (by decide) _).mp
      hreport).2.2
  exact absurd hreach (by decide)

end SiteIsolation
end FloppyGuard

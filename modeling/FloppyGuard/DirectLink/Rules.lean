import FloppyGuard.Ingress.Rules

/-! `agent-direct-link-rules.js` and the parts of `agent-direct-link.js` the ingress filter depends
on: the rows, the checks of a complete link, and what a link adds to an agent's filter. -/
namespace FloppyGuard.DirectLink

open Ingress

def maxDirectLinkId : ℕ := 9999

/-- A private /30 network, as `canonicalTunnelSubnet` lets it pass. -/
structure TunnelSubnet where
  text : String
  block : Cidr
  reads : canonicalCidr text = some block
  len_eq : block.len = 30

theorem subnet_len_le : 30 ≤ 32 := by decide

def TunnelSubnet.first : TunnelSubnet :=
  ⟨"172.16.0.0/30", ⟨0xac100000#32, 30, subnet_len_le, by decide⟩, by decide, rfl⟩

/-- A sanitized row of `agent_direct_link`. -/
structure Link where
  id : ℕ
  name : String
  agentAId : ℕ
  agentBId : ℕ
  listenPort : ℕ
  endpointHost : String
  tunnelSubnet : TunnelSubnet
  mtu : Option ℕ
  enabled : Bool
  natA : Bool
  natB : Bool

/-- A sanitized update: the fields the request gives. -/
structure LinkPatch where
  name : Option String
  agentAId : Option ℕ
  agentBId : Option ℕ
  listenPort : Option ℕ
  endpointHost : Option String
  tunnelSubnet : Option TunnelSubnet
  mtu : Option (Option ℕ)
  enabled : Option Bool
  natA : Option Bool
  natB : Option Bool

/-- `{ ...existing, ...patch, id: existing.id }`. -/
def LinkPatch.merge (patch : LinkPatch) (existing : Link) : Link where
  id := existing.id
  name := patch.name.getD existing.name
  agentAId := patch.agentAId.getD existing.agentAId
  agentBId := patch.agentBId.getD existing.agentBId
  listenPort := patch.listenPort.getD existing.listenPort
  endpointHost := patch.endpointHost.getD existing.endpointHost
  tunnelSubnet := patch.tunnelSubnet.getD existing.tunnelSubnet
  mtu := patch.mtu.getD existing.mtu
  enabled := patch.enabled.getD existing.enabled
  natA := patch.natA.getD existing.natA
  natB := patch.natB.getD existing.natB

def directIface (id : ℕ) : String := "fgd" ++ decimal id

/-- `{ a, b }`: the first two addresses after the network address. -/
def tunnelAddresses (t : TunnelSubnet) : Ip × Ip := (t.block.base + 1, t.block.base + 2)

def isIpv4Literal (v : String) : Bool := (ipToInt v.toList).isSome

/-! The checks of a complete link against the mesh. -/

/-- The columns of an agent that the checks read. -/
structure AgentRow where
  wgLinkName : Option String
  ingressMode : IngressMode

structure MeshContext where
  agents : ℕ → Option AgentRow
  siteLinkIdOf : AgentRow → Option String
  isolated : String → String → Bool
  siteNets : List String
  agentTunnelSubnets : List String
  others : List Link

def netsMeet (n t : String) : Bool := cidrContains n t || cidrContains t n

/-- A clash of one other row with the link. -/
def clashWith (link o : Link) : Option String :=
  let t := link.tunnelSubnet.text
  if netsMeet o.tunnelSubnet.text t then
    some ("tunnel_subnet " ++ t ++ " is already used by direct link \"" ++ o.name ++ "\"")
  else if (o.agentAId = link.agentAId ∧ o.agentBId = link.agentBId) ∨
      (o.agentAId = link.agentBId ∧ o.agentBId = link.agentAId) then
    some ("these agents already have direct link \"" ++ o.name ++ "\"")
  else if o.agentAId = link.agentAId ∧ o.listenPort = link.listenPort then
    some ("listen_port " ++ decimal link.listenPort ++ " is already used on this agent by \"" ++
      o.name ++ "\"")
  else none

def assertNoLinkClash (link : Link) (others : List Link) : Except String Unit :=
  match (others.filter (·.id ≠ link.id)).findSome? (clashWith link) with
  | some message => .error message
  | none => .ok ()

def natRestrictedConflict (link : Link) (a b : AgentRow) : Bool :=
  (a.ingressMode = .restricted && link.natB) || (b.ingressMode = .restricted && link.natA)

def directNetConflict (link : Link) (nets : List String) : Option String :=
  let t := link.tunnelSubnet.text
  match nets.find? (netsMeet · t) with
  | some clash => some ("tunnel_subnet " ++ t ++ " overlaps " ++ clash)
  | none =>
    if isIpv4Literal link.endpointHost then
      (nets.find? (cidrContains · (link.endpointHost ++ "/32"))).map fun inside =>
        "endpoint_host " ++ link.endpointHost ++ " lies inside " ++ inside
    else none

/-- The checks that only an enabled link has to pass. -/
def assertEnabledFits (link : Link) (ctx : MeshContext) : Except String Unit :=
  match ctx.agents link.agentAId, ctx.agents link.agentBId with
  | some a, some b =>
    match ctx.siteLinkIdOf a, ctx.siteLinkIdOf b with
    | some la, some lb =>
      if la = lb then .error "both agents belong to the same site"
      else if ctx.isolated la lb then
        .error
          ("these sites are separated („Standorte untereinander“) — the separation only applies " ++
           "on the hub, a direct link would bypass it")
      else if natRestrictedConflict link a b then
        .error
          ("a side with „nur Freigaben“ cannot take a partner that masquerades into the direct " ++
           "tunnel: its Freigaben match the partner's hub address, on the direct path the " ++
           "traffic would arrive from the transfer net and be dropped")
      else match directNetConflict link (ctx.siteNets ++ ctx.agentTunnelSubnets) with
        | some conflict => .error conflict
        | none => .ok ()
    | _, _ =>
      .error
        ("both agents must be bound to a site link (Standort-Verbindung) — road-warrior clients " ++
         "cannot have direct links")
  | _, _ => .error "both agents must exist"

def assertDirectLinkFits (link : Link) (ctx : MeshContext) : Except String Unit := do
  assertNoLinkClash link ctx.others
  if link.enabled then assertEnabledFits link ctx else .ok ()

/-! What links add to the filter of an agent. -/

/-- An enabled link with the agent on one side. -/
def Link.serves (l : Link) (agentId : ℕ) : Bool :=
  l.enabled && (l.agentAId == agentId || l.agentBId == agentId)

/-- An agent's enabled links in id order. -/
def servingLinks (links : List Link) (agentId : ℕ) : List Link :=
  (links.filter (·.serves agentId)).insertionSort (·.id ≤ ·.id)

def ifacesFor (links : List Link) (agentId : ℕ) : List String :=
  (servingLinks links agentId).map fun l => directIface l.id

/-- The alias of one link: the partner's hub address, as the `Address` line of its configuration
shows it, and its address on the link. -/
def aliasOf (hubAddress : ℕ → Option String) (agentId : ℕ) (l : Link) : Option DirectAlias :=
  let sideA : Bool := l.agentAId == agentId
  (hubAddress (if sideA then l.agentBId else l.agentAId)).map fun hub =>
    ⟨directIface l.id, hub, if sideA then (tunnelAddresses l.tunnelSubnet).2
      else (tunnelAddresses l.tunnelSubnet).1⟩

def ingressAliasesFor (hubAddress : ℕ → Option String) (links : List Link) (agentId : ℕ) :
    List DirectAlias :=
  (servingLinks links agentId).filterMap (aliasOf hubAddress agentId)

/-- Interfaces the filter repeats every line for. -/
def ifaceCountOf (links : List Link) (agentId : ℕ) : ℕ := 1 + (ifacesFor links agentId).length

/-- The other enabled links of an agent, as `validateComplete` counts them. -/
def enabledOthers (others : List Link) (link : Link) (agentId : ℕ) : ℕ :=
  (others.filter fun o => o.id ≠ link.id && o.serves agentId).length

/-- The size check of one side: the agent's rules on the hub interface, this link and the others. -/
def assertSideFits (link : Link) (others : List Link) (agentId : ℕ) (rules : List Rule) :
    Except String Unit :=
  assertTotalLineCount rules (2 + enabledOthers others link agentId)

end FloppyGuard.DirectLink

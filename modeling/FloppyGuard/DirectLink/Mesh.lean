import FloppyGuard.Agent.Reach
import FloppyGuard.DirectLink.Rules

/-! `agent-direct-link.js`: the mesh as the views and payloads see it. -/
namespace FloppyGuard.DirectLink

open Ingress WireGuard

/-- The columns of an agent that its payload reads. -/
structure Agent extends AgentRow, AgentSync.Acl where
  id : ℕ
  name : String
  wgInterface : Option String
  configText : Option String

/-- What the tables and the metadata store hold: the links of the hub, the separated pairs and the
agents that are not deleted. A link id is never empty. -/
structure Mesh where
  links : Table String LinkMeta
  pairs : List (String × String)
  agents : List Agent
  linkIds : "" ∉ links.keys
  agentIds : (agents.map Agent.id).Nodup

def pairKey (x y : String) : String :=
  if Text.le y.toList x.toList then y ++ "|" ++ x else x ++ "|" ++ y

/-! The tunnel subnets that the agents' configurations show. -/

/-- The address and the prefix of an `Address` line. -/
def addressLine (line : List Char) : Option (String × ℕ) :=
  ((addressValue line).bind leadingCidr).bind fun n => (Text.number 2 n.2).map fun p =>
    (String.ofList n.1, p)

/-- The subnet of one agent. An address without subnet information stands for its `/24`. -/
def agentTunnelSubnet (configText : Option String) : Option Cidr :=
  ((Text.lineStarts (configText.getD "").toList).findSome? addressLine).bind fun (addr, p) =>
    canonicalizeIpv4Network (addr ++ "/" ++ decimal (if p = 32 then 24 else p))

def agentTunnelSubnets (agents : List Agent) : List String :=
  (agents.filterMap fun a => (agentTunnelSubnet a.configText).map Cidr.render).eraseDups

namespace Mesh

variable (m : Mesh)

def byId (id : ℕ) : Option Agent := m.agents.find? (·.id = id)

/-- A name that two links carry leads to none. -/
def byName : Table String (Option (String × LinkMeta)) :=
  .index (fun e => e.2.name.filter (· ≠ "")) m.links.entries

def siteLinkOf (agent : AgentRow) : Option (String × LinkMeta) :=
  match agent.wgLinkName with
  | none | some "" => none
  | some n => ((m.byName.get? n).bind id).filter fun hit => hit.2.type ≠ some "client"

def siteLinkIdOf (agent : AgentRow) : Option String := (m.siteLinkOf agent).map Prod.fst

def isolated (x y : String) : Bool := pairKey x y ∈ m.pairs.map fun p => pairKey p.1 p.2

def siteNets : List String := collectSiteNetworks m.links

/-- Everything a `/30` must not overlap. -/
def meshNets : List String := m.siteNets ++ agentTunnelSubnets m.agents

/-- `otherSiteNetsFor` as `getConfig` passes it: the reach of the agent on the hub. -/
def otherSiteNetsFor (json : AgentSync.ParseArray) (agent : Agent) : List String :=
  let mesh := AgentSync.meshIndex m.links
  match agent.wgLinkName with
  | none | some "" => []
  | some n =>
    match mesh.linksByName.get? n with
    | some linkMeta => (AgentSync.agentOtherSiteNets json agent.toAcl linkMeta mesh).nets
    | none => []

end Mesh

/-! A name that one link carries leads to that link. -/

end FloppyGuard.DirectLink

import FloppyGuard.DirectLink.Payload
import FloppyGuard.Lib.Checked
import FloppyGuard.Lib.Rows

/-! The two ends of a direct link: each computes its entry from its own side, the view from neither.
-/
namespace FloppyGuard.DirectLink

open Ingress WireGuard

variable {m : Mesh} {row : Link} {self a b : Agent} {x y n : String} {e : PayloadEntry}

/-! The mesh. -/

theorem Mesh.byId_eq_some {id : ℕ} : m.byId id = some a ↔ a ∈ m.agents ∧ a.id = id := by
  constructor
  · intro h
    exact ⟨List.mem_of_find?_eq_some h, by simpa using List.find?_some h⟩
  · rintro ⟨ha, rfl⟩
    obtain ⟨b, hb⟩ := Option.isSome_iff_exists.mp
      (List.find?_isSome.mpr ⟨a, ha, decide_eq_true rfl⟩ : (m.byId a.id).isSome)
    have hid : b.id = a.id := by simpa using List.find?_some hb
    exact hb.trans
      (congrArg some (List.inj_on_of_nodup_map m.agentIds (List.mem_of_find?_eq_some hb) ha hid))

/-- The one link with the name the agent is bound to, and no client. -/
structure BoundTo (m : Mesh) (agent : Agent) (id : String) (entry : LinkMeta) : Prop where
  stored : m.links.get? id = some entry
  named : ∃ n, agent.wgLinkName = some n ∧ entry.name = some n ∧
    ∀ id' entry', m.links.get? id' = some entry' → entry'.name = some n → id' = id
  site : entry.type ≠ some "client"

/-- Some address lies in both networks. -/
def ShareAddress (n o : String) : Prop :=
  ∃ bn bo, canonicalCidr n = some bn ∧ canonicalCidr o = some bo ∧ ∃ ip, ip ∈ bn ∧ ip ∈ bo

/-- What both sides check, in the order of the row. -/
structure Runs (m : Mesh) (row : Link) (a b : Agent) (la lb : String × LinkMeta) : Prop where
  agentA : m.byId row.agentAId = some a
  agentB : m.byId row.agentBId = some b
  linkA : m.siteLinkOf a.toAgentRow = some la
  linkB : m.siteLinkOf b.toAgentRow = some lb
  apart : la.1 ≠ lb.1
  together : m.isolated la.1 lb.1 = false
  free : directNetConflict row m.meshNets = none
  nat : natRestrictedConflict row a.toAgentRow b.toAgentRow = false

variable {rt : Runtime} {json : AgentSync.ParseArray} {keys : ℕ → PublicKeys}
  {links : Rows Link Link.id}

/-- The payload of the agent has this entry for the row. -/
def Built (rt : Runtime) (json : AgentSync.ParseArray) (m : Mesh) (keys : ℕ → PublicKeys)
    (links : Rows Link Link.id)
    (self : Agent) (row : Link) (e : PayloadEntry) : Prop :=
  ∃ entries, payloadFor rt json m keys links.rows self = .ok entries ∧ e ∈ entries ∧ e.id = row.id

/-- The sites of the row are two, each the only link of its name and no client, not separated, and
the `/30` has no address of a site network. -/
def Permitted (m : Mesh) (row : Link) : Prop :=
  (∃ a b la lb ea eb, m.byId row.agentAId = some a ∧ m.byId row.agentBId = some b ∧
    BoundTo m a la ea ∧ BoundTo m b lb eb ∧ la ≠ lb ∧ (la, lb) ∉ m.pairs ∧ (lb, la) ∉ m.pairs) ∧
  ∀ id entry nets n, m.links.get? id = some entry → entry.type ≠ some "client" →
    entry.importedNetworks = some nets →
    n ∈ nets → isAcceptableNetworkPrefix n = true → ¬ ShareAddress n row.tunnelSubnet.text

/-- The routes stay within the reach of the agent and the exports of the partner, and clear of the
agent's own networks. -/
def Within (json : AgentSync.ParseArray) (m : Mesh) (self : Agent) (row : Link)
    (routes : List String) : Prop :=
  ∀ n ∈ routes, n ∈ m.otherSiteNetsFor json self ∧
    ∃ partner own theirs id id', m.byId (partnerId self.id row) = some partner ∧
      BoundTo m self id own ∧
      BoundTo m partner id' theirs ∧ n ∈ theirs.importedNetworks.getD [] ∧
      ∀ o ∈ own.importedNetworks.getD [] ++ agentTunnelSubnets [self], ¬ ShareAddress n o

def sampleAgent (id : ℕ) (name address : String) : Agent where
  wgLinkName := some name
  ingressMode := .open_
  allowedNetworks := none
  allowedSites := none
  id
  name
  wgInterface := none
  configText := some ("[Interface]\nAddress = " ++ address)

def sampleRow (id : ℕ) : Link where
  id
  name := "north-south"
  agentAId := 1
  agentBId := 2
  listenPort := 51821
  endpointHost := "north.example"
  tunnelSubnet := .first
  mtu := none
  enabled := true
  natA := false
  natB := false

def sampleLinks : Rows Link Link.id := Rows.empty.insert sampleRow fun _ => rfl

end FloppyGuard.DirectLink

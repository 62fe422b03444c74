import FloppyGuard.DirectLink.Mesh

/-! The admin view of a direct link and the entry each of its two agents is sent. -/
namespace FloppyGuard.DirectLink

open Ingress WireGuard

def directTableBase : ℕ := 52000

def directKeepaliveS : ℕ := 25

def directTable (id : ℕ) : ℕ := directTableBase + id

/-- The keys the two gateways have reported for a link. -/
structure PublicKeys where
  a : Option String
  b : Option String

inductive Side
  | a
  | b
deriving DecidableEq

/-! The view. -/

/-- `/^\d{1,3}\.\d{1,3}\.\d{1,3}\.\d{1,3}\/\d{1,2}$/` -/
def isDottedCidr (n : String) : Bool :=
  match n.toList.splitOn '/' with
  | [addr, p] => isDotted addr && (Text.number 2 p).isSome
  | _ => false

def assertCidr (n : String) : Except String Unit :=
  if isDottedCidr n then .ok () else .error ("Invalid CIDR: " ++ n)

def isBase64 (c : Char) : Bool := c.isAlphanum || c == '+' || c == '/'

/-- `WG_PUBKEY_RE` -/
def isWgPublicKey (key : String) : Bool :=
  match key.toList.drop 42 with
  | [last, '='] => (key.toList.take 42).all isBase64 && last ∈ "AEIMQUYcgkosw048".toList
  | _ => false

/-- The chain of the relay guard, named after the interface. -/
def directGuardChain (id : ℕ) : String := "FGD" ++ decimal id

/-- `/^wg\d{1,3}$/` or `wg0`. -/
def hubIfaceOf (wgInterface : Option String) : String :=
  if isWgIface (wgInterface.getD "") then wgInterface.getD "" else "wg0"

structure DirectHooks where
  postUp : String
  postDown : String

/-- Traffic that arrives through the tunnel only goes on to the networks of this site. -/
def guardUp (iface guard : String) (ownNets : List String) : List String :=
  ["iptables -N " ++ guard ++ " 2>/dev/null || iptables -F " ++ guard] ++
    ownNets.map (fun n => "iptables -A " ++ guard ++ " -d " ++ n ++ " -j RETURN") ++
    ["iptables -A " ++ guard ++ " -j DROP",
      "iptables -C FORWARD -i " ++ iface ++ " -j " ++ guard ++
        " 2>/dev/null || iptables -I FORWARD 1 -i " ++ iface ++
        " -j " ++ guard]

def guardDown (iface guard : String) : List String :=
  ["iptables -D FORWARD -i " ++ iface ++ " -j " ++ guard ++ " 2>/dev/null || true",
    "iptables -F " ++ guard ++ " 2>/dev/null || true",
    "iptables -X " ++ guard ++ " 2>/dev/null || true"]

/-- Each rule with the table it stands in. -/
def directRules (iface tunnelSubnet : String) (nat : Bool) : List (String × String) :=
  [("FORWARD -i " ++ iface ++ " -j ACCEPT", ""),
    ("FORWARD -o " ++ iface ++ " -j ACCEPT", ""),
    ("POSTROUTING ! -o " ++ iface ++ " -s " ++ tunnelSubnet ++ " -j MASQUERADE", "-t nat ")] ++
    if nat then [("POSTROUTING -o " ++ iface ++ " -j MASQUERADE", "-t nat ")] else []

def buildDirectHooks (id : ℕ) (hubIface tunnelSubnet : String) (nat : Bool)
    (ownNets : List String) :
    Except String DirectHooks := do
  let iface := directIface id
  if !isDirectIface iface then throw ("invalid direct interface: " ++ iface)
  if !isWgIface hubIface then throw ("invalid hub interface: " ++ hubIface)
  assertCidr tunnelSubnet
  for n in ownNets do assertCidr n
  let guard := directGuardChain id
  let rules := directRules iface tunnelSubnet nat
  let up := ["sysctl -w net.ipv4.ip_forward=1",
      "sysctl -w net.ipv4.conf." ++ iface ++ ".rp_filter=2",
      "[ ! -e /proc/sys/net/ipv4/conf/" ++ hubIface ++ " ] || sysctl -w net.ipv4.conf." ++
        hubIface ++ ".rp_filter=2"] ++
    guardUp iface guard ownNets ++
    rules.map fun r => "iptables " ++ r.2 ++ "-C " ++ r.1 ++ " 2>/dev/null || iptables " ++ r.2 ++
      "-A " ++ r.1
  let down := guardDown iface guard ++ rules.map fun r => "iptables " ++ r.2 ++ "-D " ++ r.1 ++
    " 2>/dev/null || true"
  return ⟨"; ".intercalate up, "; ".intercalate down⟩

/-- What one side is told about a link that runs. -/
structure SideInput where
  link : Link
  side : Side
  hubIface : String
  peerPublicKey : Option String
  peerNets : List String
  ownNets : List String

namespace SideInput

variable (inp : SideInput)

def ownAddress : Ip :=
  match inp.side with
  | .a => (tunnelAddresses inp.link.tunnelSubnet).1
  | .b => (tunnelAddresses inp.link.tunnelSubnet).2

def peerAddress : Ip :=
  match inp.side with
  | .a => (tunnelAddresses inp.link.tunnelSubnet).2
  | .b => (tunnelAddresses inp.link.tunnelSubnet).1

def nat : Bool :=
  match inp.side with
  | .a => inp.link.natA
  | .b => inp.link.natB

def endpoint : String := inp.link.endpointHost ++ ":" ++ decimal inp.link.listenPort

end SideInput

def directConfigLines (inp : SideInput) (hooks : DirectHooks) (peerPublicKey : String) :
    List String :=
  ["[Interface]", "Address = " ++ String.ofList (intToIp inp.ownAddress) ++ "/30"] ++
    (if inp.side = .a then ["ListenPort = " ++ decimal inp.link.listenPort] else []) ++
    (match inp.link.mtu with
      | none | some 0 => []
      | some mtu => ["MTU = " ++ decimal mtu]) ++
    ["Table = off", "PostUp = " ++ hooks.postUp, "PostDown = " ++ hooks.postDown, "", "[Peer]",
      "PublicKey = " ++ peerPublicKey,
      "AllowedIPs = " ++ ", ".intercalate (inp.link.tunnelSubnet.text :: inp.peerNets)] ++
    (if inp.side = .b then ["Endpoint = " ++ inp.endpoint] else []) ++
    ["PersistentKeepalive = " ++ decimal directKeepaliveS]

/-- No configuration as long as the key of the partner is not known. -/
def buildDirectConfig (inp : SideInput) : Except String (Option String) :=
  match inp.peerPublicKey with
  | none => .ok none
  | some key =>
    if isWgPublicKey key then do
      let hooks ← buildDirectHooks inp.link.id inp.hubIface inp.link.tunnelSubnet.text inp.nat
        inp.ownNets
      for n in inp.peerNets do assertCidr n
      return some ("\n".intercalate (directConfigLines inp hooks key) ++ "\n")
    else .ok none

/-- The networks routed through the link: of the reach on the hub, what the partner exports and what
does not overlap a network of this side. -/
def directPeerNets (otherSiteNets partnerNets ownNets : List String) : List String :=
  ((otherSiteNets.filter fun n => n ∈ partnerNets &&
    !ownNets.any (netsMeet n)).eraseDups).insertionSort
    fun x y => Text.le x.toList y.toList

structure RunningLink where
  peerIp : Ip
  routes : List String
  endpoint : Option String
  configText : Option String
  configHash : Option String

/-- One entry of `direct_links`; a link that must not run has no more than its names. -/
structure PayloadEntry where
  id : ℕ
  iface : String
  table : ℕ
  running : Option RunningLink

namespace PayloadEntry

def enabled (e : PayloadEntry) : Bool := e.running.isSome

def routes (e : PayloadEntry) : List String := (e.running.map RunningLink.routes).getD []

end PayloadEntry

def stoppedEntry (id : ℕ) : PayloadEntry := ⟨id, directIface id, directTable id, none⟩

def runningEntry (rt : Runtime) (inp : SideInput) : Except String PayloadEntry := do
  let config ← buildDirectConfig inp
  return { stoppedEntry inp.link.id with
    running := some {
      peerIp := inp.peerAddress
      routes := inp.peerNets
      endpoint := if inp.side = .b ∧ isIpv4Literal inp.link.endpointHost = false then
        some inp.endpoint else none
      configText := config
      configHash := config.map rt.sha256Hex } }

/-! The payload. -/

section Payload

variable (rt : Runtime) (json : AgentSync.ParseArray) (m : Mesh) (keys : ℕ → PublicKeys)

/-- What an agent finds out about a row it is a side of, when the link may run. -/
structure Active where
  ownLink : String × LinkMeta
  partnerLink : String × LinkMeta

def sideOf (agentId : ℕ) (row : Link) : Side := if row.agentAId = agentId then .a else .b

def partnerId (agentId : ℕ) (row : Link) : ℕ :=
  match sideOf agentId row with
  | .a => row.agentBId
  | .b => row.agentAId

def natConflict (self partner : Agent) (row : Link) : Bool :=
  match sideOf self.id row with
  | .a => natRestrictedConflict row self.toAgentRow partner.toAgentRow
  | .b => natRestrictedConflict row partner.toAgentRow self.toAgentRow

/-- The conditions under which the link runs, from the side of `self`. -/
def active (self : Agent) (row : Link) : Option Active :=
  match m.byId (partnerId self.id row) with
  | none => none
  | some partner =>
    match m.siteLinkOf self.toAgentRow, m.siteLinkOf partner.toAgentRow with
    | some ownLink, some partnerLink =>
      if row.enabled && ownLink.1 ≠ partnerLink.1 && !m.isolated ownLink.1 partnerLink.1 &&
          (directNetConflict row m.meshNets).isNone && !natConflict self partner row then
        some ⟨ownLink, partnerLink⟩
      else none
    | _, _ => none

/-- The networks of the agent itself: what its link imports, and its tunnel. -/
def ownNetworks (self : Agent) (ownLink : String × LinkMeta) : List String :=
  ownLink.2.importedNetworks.getD [] ++ agentTunnelSubnets [self]

def sideInput (self : Agent) (row : Link) (act : Active) : SideInput where
  link := row
  side := sideOf self.id row
  hubIface := hubIfaceOf self.wgInterface
  peerPublicKey := if sideOf self.id row = .a then (keys row.id).b else (keys row.id).a
  peerNets :=
    directPeerNets (m.otherSiteNetsFor json self) (act.partnerLink.2.importedNetworks.getD [])
    (ownNetworks self act.ownLink)
  ownNets :=
    (((act.ownLink.2.importedNetworks.getD []).filter isDottedCidr).eraseDups).insertionSort
    fun x y => Text.le x.toList y.toList

def entryFor (self : Agent) (row : Link) : Except String PayloadEntry :=
  match active m self row with
  | none => .ok (stoppedEntry row.id)
  | some act => runningEntry rt (sideInput json m keys self row act)

/-- The agent is a side of the row. -/
def Link.hasSide (row : Link) (agentId : ℕ) : Bool :=
  row.agentAId = agentId ∨ row.agentBId = agentId

/-- One entry for each row the agent is a side of, in the order of the ids. -/
def payloadFor (links : List Link) (self : Agent) : Except String (List PayloadEntry) :=
  ((links.filter (·.hasSide self.id)).insertionSort (·.id ≤ ·.id)).mapM
    (entryFor rt json m keys self)

end Payload

end FloppyGuard.DirectLink

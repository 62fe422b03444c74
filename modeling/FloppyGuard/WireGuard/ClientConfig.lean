import FloppyGuard.WireGuard.Links

/-! `buildClientConfig`, and which links a config may be generated for. -/
namespace FloppyGuard.WireGuard

open Text

/-- The surroundings of the hub that a client config shows; none of them changes here. -/
structure HubWorld where
  ifaceName : String
  ifaceAddresses : List String
  ifaceDns : List String
  hubPublicKey : Option String
  hubListenPort : ℕ
  hubHost : String
  wgDns : List String
  isIP : String → Bool
  /-- `wg pubkey`. -/
  derivePublicKey : String → String

/-- One label of `DNS_NAME_RE`. -/
def isDnsLabel (label : List Char) : Bool :=
  label.head?.any Char.isAlphanum && label.length ≤ 63 && label.all fun c => c.isAlphanum ||
    c == '-'

def isDnsName (s : List Char) : Bool :=
  let labels := (if s.getLast? = some '.' then s.dropLast else s).splitOn '.'
  s.length ≤ 253 && labels.all isDnsLabel

def isValidDnsEntry (isIP : String → Bool) (value : String) : Bool :=
  isIP (String.ofList (trim value.toList)) || isDnsName (trim value.toList)

structure ClientConfigInput where
  displayName : String
  privateKey : String
  publicKey : Option String
  tunnelAddress : Option String
  linkDns : List String
  fullTunnel : Bool
  platform : Option String
  importedNets : List String
  links : List LinkRecord
  excludeLinkId : String

/-- `x?.length ? x : y` -/
def orIfEmpty {α : Type} (xs ys : List α) : List α := if xs.isEmpty then ys else xs

/-- `replace(/[^\w.-]/g, "_")` -/
def safeFilename (name : List Char) : List Char :=
  name.flatMap fun c =>
    if c.isAlphanum || c == '_' || c == '.' || c == '-' then [c]
    else List.replicate (unitLength c) '_'

def fullTunnelIPs (platform : Option String) : List String :=
  if platform = some "mobile" then ["0.0.0.0/0", "::/0"]
  else ["0.0.0.0/1", "128.0.0.0/1", "::/1", "8000::/1"]

/-- The networks a client sends into the tunnel. -/
def clientAllowedIPs (w : HubWorld) (inp : ClientConfigInput) : List String :=
  if inp.fullTunnel then fullTunnelIPs inp.platform
  else orIfEmpty inp.importedNets
    (w.ifaceAddresses ++ (inp.links.filter (·.id ≠ inp.excludeLinkId)).flatMap
      LinkRecord.exportedNetworks).eraseDups

def clientConfigLines (w : HubWorld) (inp : ClientConfigInput) : List String :=
  let dnsServers :=
    (orIfEmpty inp.linkDns (orIfEmpty w.ifaceDns w.wgDns)).filter (isValidDnsEntry w.isIP)
  let allowed := ", ".intercalate (clientAllowedIPs w inp)
  ["# WireGuard peer config — " ++ inp.displayName, "# Generated by FloppyGuard", "", "[Interface]",
      "PrivateKey = " ++ inp.privateKey] ++
    (inp.publicKey.toList.map fun key =>
      "# PublicKey = " ++ key ++ "  # (registered on hub — do not share)") ++
    (inp.tunnelAddress.toList.map fun address => "Address = " ++ address) ++
    (if dnsServers = [] then [] else ["DNS = " ++ ", ".intercalate dnsServers]) ++
    ["", "[Peer]", "# Hub interface: " ++ w.ifaceName] ++
    (w.hubPublicKey.toList.map fun key => "PublicKey = " ++ key) ++
    ["Endpoint = " ++ w.hubHost ++ ":" ++ toString w.hubListenPort,
      "AllowedIPs = " ++ (if allowed = "" then "0.0.0.0/0" else allowed),
        "PersistentKeepalive = 25"]

/-- The material a call hands out. -/
structure PeerConfig where
  filename : String
  content : String
  publicKey : String
deriving DecidableEq

/-- `buildClientConfig`, with the file named after the link. -/
def buildClientConfig (w : HubWorld) (publicKey : String) (inp : ClientConfigInput) :
    PeerConfig where
  filename := String.ofList (safeFilename (inp.displayName ++ ".conf").toList)
  content := "\n".intercalate (clientConfigLines w inp) ++ "\n"
  publicKey

/-- `assertPeerConfigAllowed` without the lookup of bound agents: the reason it fails for. -/
def peerConfigRefusal (ifaceName : String) (link : LinkRecord) (entry : Option LinkEntry) :
    Option String :=
  let stored := entry.bind fun e => normalizeLinkType e.type
  let effectiveType := if link.type ≠ "" then link.type
    else stored.getD (classifyLinkType link.allowedIps ifaceName)
  if effectiveType ≠ "client" then some "nur für Client-Verbindungen (Typ „client“)"
  else if stored ≠ some "client" ∧ link.allowedIps.any (fun c => !isHostRoute c) then
    some "Verbindung ohne ausdrücklichen Typ „client“ trägt ein Netz (vermutlich ein Standort)"
  else if entry.bind LinkEntry.remoteManagementMode = some "agent" then
    some "die Verbindung wird von einem Agent verwaltet"
  else none

end FloppyGuard.WireGuard

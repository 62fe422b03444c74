import FloppyGuard.WireGuard.Metadata

/-! The links of the live status: a peer of the dump together with its metadata. -/
namespace FloppyGuard.WireGuard

open Text

/-- The fields of a metadata entry that the link records and client configs read. -/
structure LinkEntry extends LinkMeta where
  exportedNetworks : List String
  remoteManagementMode : Option String
  dns : List String
  fullTunnel : Bool
  platform : Option String
deriving DecidableEq

/-- The entry of a link the store does not know. -/
def LinkEntry.blank : LinkEntry := ⟨⟨none, none, none⟩, [], none, [], false, none⟩

/-- A peer of `wg show dump`. -/
structure LivePeer where
  publicKey : String
  allowedIps : List String
deriving DecidableEq

def isPrivateNetwork (target : String) : Bool :=
  let t := target.toList
  "10.".toList.isPrefixOf t || "192.168.".toList.isPrefixOf t || "fd".toList.isPrefixOf t ||
    "fc".toList.isPrefixOf t ||
    ((List.range 16).any fun k => ("172." ++ toString (16 + k) ++ ".").toList.isPrefixOf t)

def classifyLinkType (allowedIps : List String) (ifaceName : String) : String :=
  let privateNetworks := allowedIps.filter isPrivateNetwork
  let networkRoutes := privateNetworks.filter fun c => !isHostRoute c
  let hostRoutes := privateNetworks.filter isHostRoute
  if ifaceName = "wg0" ∧ networkRoutes.length ≤ 1 then "client"
  else if 2 ≤ networkRoutes.length then "hub-link"
  else if 1 ≤ networkRoutes.length then "site-to-site"
  else if 0 < hostRoutes.length then "client"
  else if ifaceName = "wg0" then "client" else "unknown"

structure LinkRecord where
  id : String
  type : String
  name : String
  peerPublicKey : String
  allowedIps : List String
  tunnelAddresses : List String
  exportedNetworks : List String
  importedNetworks : List String
deriving DecidableEq

/-- `dedupe` -/
def dedupe (values : List String) : List String := (values.filter (· ≠ "")).eraseDups

/-- The stored name, else one made of the type and the key. -/
def linkName (type publicKey : String) (name : Option String) : String :=
  match name with
  | none | some "" => type ++ "-" ++ String.ofList (publicKey.toList.take 8)
  | some name => name

/-- `buildLinkRecord` for a peer with a key. -/
def buildLinkRecord (ifaceName : String) (peer : LivePeer) (entry : LinkEntry) : LinkRecord :=
  let type := (normalizeLinkType entry.type).getD (classifyLinkType peer.allowedIps ifaceName)
  let stored := entry.importedNetworks.getD []
  { id := linkId ifaceName peer.publicKey
    type
    name := linkName type peer.publicKey entry.name
    peerPublicKey := peer.publicKey
    allowedIps := peer.allowedIps
    tunnelAddresses := dedupe (peer.allowedIps.filter isHostRoute)
    exportedNetworks := entry.exportedNetworks
    importedNetworks :=
      if stored ≠ [] then stored
      else dedupe (peer.allowedIps.filter fun c => isPrivateNetwork c && !isHostRoute c) }

/-- The links of one interface, as `getStatus` lists them. -/
def statusLinks (ifaceName : String) (links : Table String LinkEntry)
    (live : Table String (List String)) :
    List LinkRecord :=
  live.entries.map fun p =>
    buildLinkRecord ifaceName ⟨p.1, p.2⟩ ((links.get? (linkId ifaceName p.1)).getD .blank)

theorem linkId_injective (ifaceName : String) : Function.Injective (linkId ifaceName) := by
  intro x y h
  have h := congrArg String.toList h
  simp only [linkId, String.toList_append, List.append_assoc] at h
  exact String.toList_injective (List.append_cancel_left (List.append_cancel_left h))

/-- The link with the id of a peer is that peer of the dump. -/
theorem find_statusLinks (ifaceName key : String) (links : Table String LinkEntry)
    (live : Table String (List String)) :
    (statusLinks ifaceName links live).find? (·.id = linkId ifaceName key) =
      (live.get? key).map fun ips => buildLinkRecord ifaceName ⟨key, ips⟩
      ((links.get? (linkId ifaceName key)).getD .blank) := by
  have hids : (fun q : String × List String =>
      decide (linkId ifaceName q.1 = linkId ifaceName key)) = fun q => decide (q.1 = key) := by
    funext q
    exact decide_eq_decide.mpr (linkId_injective ifaceName).eq_iff
  have hfind : (live.entries.find? fun q => decide (linkId ifaceName q.1 = linkId ifaceName key)) =
      (live.get? key).map fun ips => (key, ips) := by
    rw [hids, Table.get?]
    cases hq : live.entries.find? (·.1 = key) with
    | none => rfl
    | some q =>
      have hkey : q.1 = key := by simpa using List.find?_some hq
      rw [Option.map_some, Option.map_some, ← hkey]
  rw [statusLinks, List.find?_map]
  refine (congrArg _ hfind).trans ?_
  rw [Option.map_map]
  rfl

/-- A link found by its id is the live peer with the key in that id. -/
theorem mem_statusLinks {ifaceName : String} {links : Table String LinkEntry}
    {live : Table String (List String)}
    {l : LinkRecord} (h : l ∈ statusLinks ifaceName links live) :
    l.id = linkId ifaceName l.peerPublicKey ∧ live.get? l.peerPublicKey = some l.allowedIps := by
  obtain ⟨p, hp, rfl⟩ := List.mem_map.mp h
  exact ⟨rfl, Table.get?_of_mem hp⟩

end FloppyGuard.WireGuard

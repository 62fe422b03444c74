import FloppyGuard.WireGuard.Metadata

/-! The networks of a site on the hub (`_buildPeerUpdates`) and at the other sites
(`_collectSiteNetworks`). -/
namespace FloppyGuard.WireGuard

open Text

variable {links : Table String LinkMeta} {lines : List String} {ifaceName pubkey n : String}
  {entry : LinkMeta} {current nets : List String}

/-- `[...xs].sort().join(",")` -/
def sortedJoin (xs : List String) : List Char :=
  [','].intercalate ((xs.insertionSort fun x y => le x.toList y.toList).map String.toList)

/-- The new `AllowedIPs` of a peer, if they change. -/
def peerUpdate (entry : LinkMeta) (currentCIDRs : List String) : Option (List String) :=
  let hostRoutes := currentCIDRs.filter isHostRoute
  let newIPs :=
    if normalizeLinkType entry.type = some "client" then hostRoutes.eraseDups
    else
      let imported := (entry.importedNetworks.getD []).filter fun c => !isHostRoute c &&
        isAcceptableNetworkPrefix c
      let currentNonHost := currentCIDRs.filter fun c => !isHostRoute c
      -- the conf's own networks stand in only for an entry without the key
      let effectiveNets := if entry.importedNetworks.isSome then imported else currentNonHost
      (hostRoutes ++ effectiveNets).eraseDups
  if sortedJoin newIPs ≠ sortedJoin currentCIDRs then some newIPs else none

/-- `_buildPeerUpdates` -/
def buildPeerUpdates (peerMap : Table String (List String)) (linksMeta : Table String LinkMeta)
    (ifaceName : String) : Table String (List String) :=
  peerMap.filterMap fun pubkey currentCIDRs =>
    (linksMeta.get? (linkId ifaceName pubkey)).bind fun entry => peerUpdate entry currentCIDRs

/-- The `AllowedIPs` of a peer once the updates are written. -/
def effectiveAllowedIPs (peerMap updates : Table String (List String)) (pubkey : String) :
    List String :=
  ((updates.get? pubkey).or (peerMap.get? pubkey)).getD []

/-- `_collectSiteNetworks` -/
def collectSiteNetworks (links : Table String LinkMeta) : List String :=
  (((links.values.filter fun l => l.type ≠ some "client").flatMap fun l =>
    l.importedNetworks.getD []).filter
    isAcceptableNetworkPrefix).eraseDups

/-! The hub. -/

/-- Lists of entries without commas print alike only when they have the same members. -/
theorem mem_iff_of_sortedJoin {xs ys : List String} (hx : ∀ x ∈ xs, Listed x)
    (hy : ∀ y ∈ ys, Listed y)
    (h : sortedJoin xs = sortedJoin ys) : n ∈ xs ↔ n ∈ ys := by
  have parts : ∀ {zs : List String}, (∀ z ∈ zs, Listed z) →
      ∀ l ∈ (zs.insertionSort fun x y => le x.toList y.toList).map String.toList, l ≠ [] ∧
        ',' ∉ l := by
    intro zs hz l hl
    obtain ⟨z, hz', rfl⟩ := List.mem_map.mp hl
    have hlisted := hz z ((List.mem_insertionSort _).mp hz')
    exact ⟨fun he => hlisted.1 (String.toList_eq_nil_iff.mp he), hlisted.2⟩
  have heq : (xs.insertionSort fun x y => le x.toList y.toList) = ys.insertionSort fun x y =>
      le x.toList y.toList :=
    List.map_injective_iff.mpr (fun _ _ => String.toList_injective)
      (join_eq (parts hx) (parts hy) h)
  rw [← List.mem_insertionSort (fun x y : String => le x.toList y.toList), heq,
    List.mem_insertionSort]

/-- The peer of an entry after the updates, whether or not its text changes. -/
theorem mem_effectiveAllowedIPs_iff {peerMap : Table String (List String)}
    (hentry : links.get? (linkId ifaceName pubkey) = some entry)
    (hpeer : peerMap.get? pubkey = some current)
    (hcurrent : ∀ c ∈ current, Listed c) {newIPs : List String}
    (hupdate : peerUpdate entry current = if sortedJoin newIPs ≠ sortedJoin current then some newIPs
      else none)
    (hnew : ∀ c ∈ newIPs, Listed c) :
    n ∈ effectiveAllowedIPs peerMap (buildPeerUpdates peerMap links ifaceName) pubkey ↔
    n ∈ newIPs := by
  have hget : (buildPeerUpdates peerMap links ifaceName).get? pubkey =
      peerUpdate entry current := by
    rw [buildPeerUpdates, Table.get?_filterMap, hpeer, Option.bind_some, hentry, Option.bind_some]
  rw [effectiveAllowedIPs, hget, hupdate, hpeer]
  split
  · rfl
  · next hsame => exact mem_iff_of_sortedJoin hcurrent hnew (not_not.mp hsame).symm

theorem peerUpdate_of_networks (htype : entry.type ≠ some "client")
    (hnets : entry.importedNetworks = some nets) :
    let newIPs := (current.filter isHostRoute ++
      nets.filter fun c => !isHostRoute c && isAcceptableNetworkPrefix c).eraseDups
    peerUpdate entry current = if sortedJoin newIPs ≠ sortedJoin current then some newIPs
      else none := by
  have hclient : normalizeLinkType entry.type ≠ some "client" :=
    mt normalizeLinkType_eq_client.mp htype
  simp [peerUpdate, hclient, hnets]

theorem peerUpdate_of_none (htype : entry.type ≠ some "client")
    (hnets : entry.importedNetworks = none) :
    let newIPs := (current.filter isHostRoute ++ current.filter fun c => !isHostRoute c).eraseDups
    peerUpdate entry current = if sortedJoin newIPs ≠ sortedJoin current then some newIPs
      else none := by
  have hclient : normalizeLinkType entry.type ≠ some "client" :=
    mt normalizeLinkType_eq_client.mp htype
  simp [peerUpdate, hclient, hnets]

/-! The other sites. -/

theorem mem_collectSiteNetworks :
    n ∈ collectSiteNetworks links ↔ isAcceptableNetworkPrefix n = true ∧
    ∃ id entry nets, links.get? id = some entry ∧ entry.type ≠ some "client" ∧
      entry.importedNetworks = some nets ∧ n ∈ nets := by
  rw [collectSiteNetworks, List.mem_eraseDups, List.mem_filter, List.mem_flatMap, and_comm]
  refine and_congr_right fun _ => ?_
  constructor
  · rintro ⟨l, hl, hn⟩
    obtain ⟨hl, htype⟩ := List.mem_filter.mp hl
    obtain ⟨id, hid⟩ := Table.mem_values.mp hl
    cases hnets : l.importedNetworks with
    | none => simp [hnets] at hn
    | some nets => exact ⟨id, l, nets, hid, by simpa using htype, hnets, by simpa [hnets] using hn⟩
  · rintro ⟨id, l, nets, hid, htype, hnets, hn⟩
    refine ⟨l, List.mem_filter.mpr ⟨Table.mem_values.mpr ⟨id, hid⟩, by simpa using htype⟩, ?_⟩
    rwa [hnets]

/-- The links without all but one. -/
def only (id : String) (entry : LinkMeta) : Table String LinkMeta := Table.empty.set id entry

theorem get?_only {id id' : String} {other : LinkMeta} :
    (only id entry).get? id' = some other ↔ id' = id ∧ other = entry := by
  rw [only, Table.get?_set]
  by_cases h : id' = id
  · simp [h, eq_comm]
  · simp [h]

/-- The networks of a site's entry are on the hub exactly when the other sites hear of them. A site
whose entry has no network list keeps the networks of the conf, and no other site hears of them. -/
theorem hub_networks_eq_advertised
    (hentry : links.get? (linkId ifaceName pubkey) = some entry)
    (htype : entry.type ≠ some "client")
    (hpeer : (parsePeersFromConf lines).get? pubkey = some current)
    (hcomma : ∀ nets, entry.importedNetworks = some nets → ∀ c ∈ nets, ',' ∉ c.toList)
    (hn : isHostRoute n = false) :
    let peerMap := parsePeersFromConf lines
    let hub := effectiveAllowedIPs peerMap (buildPeerUpdates peerMap links ifaceName) pubkey
    let advertised := collectSiteNetworks (only (linkId ifaceName pubkey) entry)
    match entry.importedNetworks with
    | some nets =>
      (n ∈ hub ↔ n ∈ advertised) ∧ (n ∈ advertised ↔ n ∈ nets ∧ isAcceptableNetworkPrefix n = true)
    | none => (n ∈ hub ↔ n ∈ current) ∧ advertised = [] := by
  have hlisted := listed_of_parse hpeer
  have hadvertised : n ∈ collectSiteNetworks (only (linkId ifaceName pubkey) entry) ↔
      ∃ nets, entry.importedNetworks = some nets ∧ n ∈ nets ∧
        isAcceptableNetworkPrefix n = true := by
    rw [mem_collectSiteNetworks]
    constructor
    · rintro ⟨hok, id, other, nets, hid, -, hnets, hm⟩
      obtain ⟨rfl, rfl⟩ := get?_only.mp hid
      exact ⟨nets, hnets, hm, hok⟩
    · rintro ⟨nets, hnets, hm, hok⟩
      exact ⟨hok, _, entry, nets, get?_only.mpr ⟨rfl, rfl⟩, htype, hnets, hm⟩
  dsimp only
  split
  · next nets hnets =>
    have hmine : n ∈ collectSiteNetworks (only (linkId ifaceName pubkey) entry) ↔
        n ∈ nets ∧ isAcceptableNetworkPrefix n = true := by
      simp [hadvertised, hnets]
    refine ⟨?_, hmine⟩
    rw [mem_effectiveAllowedIPs_iff hentry hpeer hlisted (peerUpdate_of_networks htype hnets),
      hmine]
    · simp [hn]
    · intro c hc
      rw [List.mem_eraseDups, List.mem_append, List.mem_filter, List.mem_filter, Bool.and_eq_true]
        at hc
      rcases hc with hc | hc
      · exact hlisted c hc.1
      · exact ⟨ne_empty_of_acceptable hc.2.2, hcomma nets hnets c hc.1⟩
  · next hnets =>
    constructor
    · rw [mem_effectiveAllowedIPs_iff hentry hpeer hlisted (peerUpdate_of_none htype hnets)]
      · simp [hn]
      · intro c hc
        rw [List.mem_eraseDups, List.mem_append, List.mem_filter, List.mem_filter] at hc
        rcases hc with hc | hc
        · exact hlisted c hc.1
        · exact hlisted c hc.1
    · refine List.eq_nil_iff_forall_not_mem.mpr fun c hc => ?_
      obtain ⟨-, id, other, nets, hid, -, hnets', -⟩ := mem_collectSiteNetworks.mp hc
      obtain ⟨rfl, rfl⟩ := get?_only.mp hid
      simp [hnets] at hnets'

/-! A site peer of a conf: once with a network list, once without. -/

def siteConf : List String :=
  ["[Interface]", "Address = 10.10.0.1/24", "", "[Peer]", "PublicKey = kA=",
    "AllowedIPs = 10.10.0.2/32, 192.168.5.0/24"]

def siteEntry (nets : Option (List String)) : LinkMeta := ⟨some "Berlin", some "site-to-site", nets⟩

theorem hub_networks_eq_advertised_sample :
    let hub := effectiveAllowedIPs (parsePeersFromConf siteConf)
      (buildPeerUpdates (parsePeersFromConf siteConf)
        (only "wg0:kA=" (siteEntry (some ["192.168.7.0/24"]))) "wg0") "kA="
    let advertised := collectSiteNetworks (only "wg0:kA=" (siteEntry (some ["192.168.7.0/24"])))
    ("192.168.7.0/24" ∈ hub ↔ "192.168.7.0/24" ∈ advertised) ∧ ("192.168.7.0/24" ∈ advertised ↔
      "192.168.7.0/24" ∈ ["192.168.7.0/24"] ∧ isAcceptableNetworkPrefix "192.168.7.0/24" = true) :=
  have hentry : (only "wg0:kA=" (siteEntry (some ["192.168.7.0/24"]))).get? (linkId "wg0" "kA=") =
      some (siteEntry (some ["192.168.7.0/24"])) := by decide +kernel
  have hpeer : (parsePeersFromConf siteConf).get? "kA=" =
      some ["10.10.0.2/32", "192.168.5.0/24"] := by
    decide +kernel
  have hcomma : ∀ nets, (siteEntry (some ["192.168.7.0/24"])).importedNetworks = some nets →
      ∀ c ∈ nets, ',' ∉ c.toList := by
    rintro nets ⟨⟩
    decide
  hub_networks_eq_advertised hentry (by decide) hpeer hcomma (by decide)

/-- Without a network list the hub keeps routing what no other site hears of. A stored text that
holds two networks prints like the two networks of the conf, and leaves them there. -/
theorem hub_networks_ne_advertised :
    let peerMap := parsePeersFromConf siteConf
    let hub (nets : Option (List String)) := effectiveAllowedIPs peerMap
      (buildPeerUpdates peerMap (only "wg0:kA=" (siteEntry nets)) "wg0") "kA="
    let advertised (nets : Option (List String)) :=
      collectSiteNetworks (only "wg0:kA=" (siteEntry nets))
    ("192.168.5.0/24" ∈ hub none ∧ advertised none = []) ∧
      "192.168.5.0/24" ∉ advertised (some ["192.168.4.0/24,192.168.5.0/24"]) ∧
      sortedJoin ["192.168.4.0/24,192.168.5.0/24"] =
        sortedJoin ["192.168.4.0/24", "192.168.5.0/24"] := by
  decide +kernel

end FloppyGuard.WireGuard
